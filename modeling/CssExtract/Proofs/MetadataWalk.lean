import CssExtract.Proofs.Chain
import CssExtract.Proofs.Isomorphism

namespace CssExtract.Styled

open Eval

variable {g : Graph} {p q r base : Point} {id fuel : Nat} {className : String} {seen : List Nat}
  {met met' : List (Nat × String)} {result : Except (List String) (List String)}

/-- The three forms of metadata: the record of them, an object with such a record, and an object with
an entry for them. -/
inductive Carries (g : Graph) (id : Nat) : String → Point → Prop
  | record {className : String} {base : Point}
      (here : g.containers[id]? = some (.styled className base)) : Carries g id className base
  | carrier {inner : Nat} {className : String} {base : Point}
      (here : g.containers[id]? = some (.carrier (.container inner)))
      (there : g.containers[inner]? = some (.styled className base)) : Carries g id className base
  | object {entries metadata : Entries Point} {inner : Nat} {className : String}
      (here : g.containers[id]? = some (.object entries))
      (entry : entries.get? metadataKey = some (.container inner))
      (there : g.containers[inner]? = some (.object metadata))
      (name : metadata.get? "className" = some (.scalar (.string className))) :
      Carries g id className ((metadata.get? "extends").getD (.scalar .null))

theorem carries_iff :
    Carries g id className base ↔ g.metadata? (.container id) = some (className, base) := by
  constructor
  · intro h
    cases h with
    | record here => simp [Graph.metadata?, Graph.container?, here]
    | carrier here there => simp [Graph.metadata?, Graph.container?, here, there]
    | object here entry there name =>
        simp [Graph.metadata?, Graph.container?, here, entry, there, name]
  · intro h
    rw [Graph.metadata?] at h
    split at h
    case h_1 here =>
      obtain ⟨rfl, rfl⟩ := Prod.mk.inj (Option.some.inj h)
      exact .record here
    case h_2 metadata here =>
      split at h
      case h_1 there =>
        obtain ⟨rfl, rfl⟩ := Prod.mk.inj (Option.some.inj h)
        cases metadata with
        | scalar s => simp [Graph.container?] at there
        | container inner => exact .carrier here there
      case h_2 => simp at h
    case h_3 entries here =>
      split at h
      case h_1 metadata there =>
        obtain ⟨point, entry, there⟩ := Option.bind_eq_some_iff.1 there
        split at h
        case h_1 name =>
          obtain ⟨rfl, rfl⟩ := Prod.mk.inj (Option.some.inj h)
          cases point with
          | scalar s => simp [Graph.container?] at there
          | container inner => exact .object here entry there name
        case h_2 => simp at h
      case h_2 => simp at h
    case h_4 => simp at h

def Bare (g : Graph) (p : Point) : Prop :=
  ∀ id className base, p = .container id → ¬ Carries g id className base

theorem classChain_of_carries (fuel : Nat) (seen : List Nat) (h : Carries g id className base) :
    classChain g (fuel + 1) seen (.container id) =
      if id ∈ seen then .error [] else prepend className (classChain g fuel (id :: seen) base) :=
  classChain_container (carries_iff.1 h)

theorem classChain_of_bare (fuel : Nat) (seen : List Nat) (h : Bare g p) :
    classChain g (fuel + 1) seen p = .ok [] := by
  cases p with
  | scalar s => exact classChain_scalar g _ _ s
  | container id =>
      have hnone : g.metadata? (.container id) = none := by
        apply Option.eq_none_iff_forall_ne_some.2
        rintro ⟨className, base⟩ hmetadata
        exact h id className base rfl (carries_iff.2 hmetadata)
      simp [classChain, hnone]

theorem Carries.lt (h : Carries g id className base) : id < g.containers.size := by
  cases h with
  | record here | carrier here | object here => exact (Array.getElem?_eq_some_iff.1 here).1

theorem Carries.unique {className' : String} {base' : Point} (h : Carries g id className base)
    (h' : Carries g id className' base') : className = className' ∧ base = base' := by
  have hsame := (carries_iff.1 h).symm.trans (carries_iff.1 h')
  exact Prod.mk.inj (Option.some.inj hsame)

/-- The objects met from one value on to another, with their class names. -/
inductive Trail (g : Graph) : Point → List (Nat × String) → Point → Prop
  | nil {p : Point} : Trail g p [] p
  | cons {q base : Point} {id : Nat} {className : String} {met : List (Nat × String)}
      (here : Carries g id className base) (rest : Trail g base met q) :
      Trail g (.container id) ((id, className) :: met) q

theorem Trail.concat (h : Trail g p met (.container id)) (hlast : Carries g id className base) :
    Trail g p (met ++ [(id, className)]) base := by
  generalize hq : Point.container id = q at h
  induction h with
  | nil =>
      subst hq
      exact .cons hlast .nil
  | cons here rest ih => exact .cons here (ih hq)

/-- A trail is part of the one that goes on to a value without metadata. -/
theorem Trail.within_of_bare (h : Trail g p met q) (h' : Trail g p met' r) (hbare : Bare g r) :
    met <+: met' := by
  induction h generalizing met' with
  | nil => exact List.nil_prefix
  | cons here rest ih =>
      cases h' with
      | nil => exact absurd here (hbare _ _ _ rfl)
      | cons here' rest' =>
          obtain ⟨rfl, rfl⟩ := here.unique here'
          exact (List.prefix_cons_inj _).2 (ih rest')

/-- How the loop over metadata ends: at a value without any, or at an object met before. -/
inductive WalkEnds (g : Graph) (seen : List Nat) (met : List (Nat × String)) :
    Point → Except (List String) (List String) → Prop
  | bare {last : Point} (last_bare : Bare g last) : WalkEnds g seen met last (.ok (met.map (·.2)))
  | again {id : Nat} {className : String} {base : Point} (here : Carries g id className base)
      (before : id ∈ seen ++ met.map (·.1)) :
      WalkEnds g seen met (.container id) (.error (met.map (·.2)))

theorem WalkEnds.cons (h : WalkEnds g (id :: seen) met q result) :
    WalkEnds g seen ((id, className) :: met) q (prepend className result) := by
  cases h with
  | bare last_bare => exact .bare last_bare
  | again here before =>
      apply WalkEnds.again here
      simpa [or_left_comm] using before

theorem exists_trail (h : Reserve g fuel seen) (p : Point) :
    ∃ met q, Trail g p met q ∧ (seen ++ met.map (·.1)).Nodup ∧
      (∀ object ∈ met, object.1 < g.containers.size) ∧
      WalkEnds g seen met q (classChain g fuel seen p) := by
  induction fuel generalizing seen p with
  | zero => exact absurd rfl h.pos
  | succ fuel ih =>
      by_cases hbare : Bare g p
      · refine ⟨[], p, .nil, by simpa using h.nodup, by simp, ?_⟩
        rw [classChain_of_bare fuel seen hbare]
        exact .bare hbare
      · obtain ⟨id, className, base, rfl, here⟩ :
            ∃ id className base, p = .container id ∧ Carries g id className base := by
          simpa [Bare] using hbare
        rw [classChain_of_carries fuel seen here]
        split_ifs with hseen
        · exact ⟨[], _, .nil, by simpa using h.nodup, by simp, .again here (by simpa using hseen)⟩
        · obtain ⟨c, hc⟩ : ∃ c, g.containers[id]? = some c := ⟨_, Array.getElem?_eq_getElem here.lt⟩
          have hreserve := h.cons (List.idxOf?_eq_none_iff.2 hseen) hc
          obtain ⟨met, q, htrail, hnodup, hlt, hends⟩ := ih hreserve base
          refine ⟨(id, className) :: met, q, .cons here htrail, ?_, ?_, hends.cons⟩
          · exact (List.perm_middle.nodup_iff).2 hnodup
          · exact List.forall_mem_cons.2 ⟨here.lt, hlt⟩

theorem selectorOf_cons (name : String) (names : List String) :
    selectorOf (name :: names) = "." ++ name ++ selectorOf names := by
  simp [selectorOf]

theorem reserve_nil (g : Graph) : Reserve g (g.containers.size + 1) [] :=
  ⟨List.nodup_nil, by simp, by simp⟩

namespace Processor

def wrapped (p : Processor) (cache : ValueCache) : Point :=
  (p.reference?.bind fun name => cache.points.get? name).getD (.scalar .null)

theorem extended_eq (p : Processor) (cache : ValueCache) :
    p.extended cache =
      classChain cache.graph (cache.graph.containers.size + 1) [] (p.wrapped cache) := by
  rw [extended, wrapped]
  cases p.reference? with
  | none => rfl
  | some name =>
      simp only [ValueCache.classNames, Option.bind_some]
      cases cache.points.get? name <;> rfl

def MeetsAgain (p : Processor) (cache : ValueCache) : Prop :=
  ∃ met q, Trail cache.graph (p.wrapped cache) met q ∧ ¬ (met.map (·.1)).Nodup

theorem extractRules_unconsulted (p : Processor) (cache : ValueCache)
    (h : ∀ name source, p.component ≠ .reference name source false) (other : ValueCache)
    (cssText : String) (loc : Option Location) :
    p.extractRules other cssText loc = p.extractRules cache cssText loc := by
  have hnone : p.reference? = none := by
    rw [reference?]
    split
    case h_1 name source hcomponent => exact absurd hcomponent (h name source)
    case h_2 => rfl
  simp only [extractRules_eq, extended, hnone]

/-- How far the walk from the wrapped value goes, and what is extracted at its end. -/
structure Walks (p : Processor) (cache : ValueCache) : Prop where
  ends : ∃ met q, Trail cache.graph (p.wrapped cache) met q ∧
    met.length ≤ cache.graph.containers.size ∧
      (Bare cache.graph q ∨ ∃ id className base, q = .container id ∧
        Carries cache.graph id className base ∧ id ∈ met.map (·.1))
  cyclic_iff (cssText : String) (loc : Option Location) :
    (∃ title chain, p.extractRules cache cssText loc =
      .error (.styled ⟨.cyclicExtends title chain, loc⟩)) ↔ p.MeetsAgain cache
  cyclic (cssText : String) (loc : Option Location) : p.MeetsAgain cache →
    ∃ met id className base, Trail cache.graph (p.wrapped cache) met (.container id) ∧
      Carries cache.graph id className base ∧ (met.map (·.1)).Nodup ∧ id ∈ met.map (·.1) ∧
      p.extractRules cache cssText loc = .error (.styled ⟨.cyclicExtends p.title
        ("." ++ p.className ++ selectorOf (met.map (·.2))), loc⟩)
  rule (cssText : String) (loc : Option Location) : ¬ p.MeetsAgain cache →
    ∃ met q, Trail cache.graph (p.wrapped cache) met q ∧ Bare cache.graph q ∧
      ∃ rule, p.extractRules cache cssText loc = .ok [(rule.selector, rule)] ∧
        rule.selector = "." ++ p.className ++ selectorOf (met.map (·.2)) ∧
        rule.cssText = cssText ∧ rule.className = p.className ∧
        rule.displayName = p.displayName ∧ rule.start = loc.map (·.start)
  unconsulted : (∀ name source, p.component ≠ .reference name source false) →
    ∀ other cssText loc, p.extractRules other cssText loc = p.extractRules cache cssText loc

end Processor

/-- The walk along what a component extends ends in every graph. Only the same object met again makes
an error of it, not another one that is alike. -/
theorem extractRules_walks (p : Processor) (cache : ValueCache) : p.Walks cache := by
  obtain ⟨met, q, htrail, hnodup, hlt, hends⟩ :=
    exists_trail (reserve_nil cache.graph) (p.wrapped cache)
  rw [← p.extended_eq cache] at hends
  rw [List.nil_append] at hnodup
  have hlength : met.length ≤ cache.graph.containers.size := by
    simpa using length_le_of_nodup hnodup (by simpa using hlt)
  have hextract (cssText : String) (loc : Option Location) := p.extractRules_eq cache cssText loc
  generalize p.extended cache = result at hends hextract
  cases hends with
  | bare hbare =>
      have hnot : ¬ p.MeetsAgain cache := by
        rintro ⟨met', q', htrail', hdouble⟩
        exact hdouble (hnodup.sublist ((htrail'.within_of_bare htrail hbare).sublist.map _))
      simp only [selectorOf_cons] at hextract
      constructor
      case ends => exact ⟨met, q, htrail, hlength, .inl hbare⟩
      case cyclic_iff =>
        intro cssText loc
        simp [hextract, hnot]
      case cyclic =>
        intro _ _ hagain
        exact absurd hagain hnot
      case rule =>
        intro cssText loc _
        refine ⟨met, q, htrail, hbare, ⟨_, cssText, _, _, _⟩, hextract cssText loc, ?_⟩
        exact ⟨rfl, rfl, rfl, rfl, rfl⟩
      case unconsulted => exact p.extractRules_unconsulted cache
  | @again id className base here before =>
      rw [List.nil_append] at before
      have hagain : p.MeetsAgain cache := by
        refine ⟨_, _, htrail.concat here, ?_⟩
        rw [List.map_append, List.map_singleton, List.nodup_append]
        intro h
        exact h.2.2 id before id (List.mem_singleton_self id) rfl
      simp only [selectorOf_cons] at hextract
      constructor
      case ends => exact ⟨met, _, htrail, hlength, .inr ⟨id, className, base, rfl, here, before⟩⟩
      case cyclic_iff =>
        intro cssText loc
        simp [hextract, hagain]
      case cyclic =>
        intro cssText loc _
        exact ⟨met, id, className, base, htrail, here, hnodup, before, hextract cssText loc⟩
      case rule =>
        intro _ _ hnot
        exact absurd hagain hnot
      case unconsulted => exact p.extractRules_unconsulted cache

end CssExtract.Styled
