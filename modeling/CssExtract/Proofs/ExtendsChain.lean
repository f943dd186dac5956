import CssExtract.Proofs.Chain

namespace CssExtract.Styled

open Eval

namespace Module

variable (m : Module)

/-- The walk from a reference: the last site of the name, and then on to what that one extends. -/
def walk : Option String → Nat → Option ProcessedSite
  | reference, 0 => reference.bind m.last
  | reference, k + 1 => (reference.bind m.last).bind fun site => walk site.processor.reference? k

def Revisits (reference : Option String) : Prop :=
  ∃ i j site, i < j ∧ m.walk reference i = some site ∧ m.walk reference j = some site

variable {m : Module} {reference : Option String} {site : ProcessedSite} {seen names : List String}
  {path : List ProcessedSite} {b : Build}

theorem walk_of_none (h : reference.bind m.last = none) (k : Nat) : m.walk reference k = none := by
  cases k <;> simp [walk, h]

theorem walk_of_some (h : reference.bind m.last = some site) (k : Nat) :
    m.walk reference (k + 1) = m.walk site.processor.reference? k := by
  simp [walk, h]

theorem walk_name {name : String} (h : m.last name = some site) (k : Nat) :
    m.walk (some name) (k + 1) = m.walk site.processor.reference? k := by
  simp [walk, h]

/-- Where the walk goes on from a site depends on the site only. -/
theorem walk_add {i : Nat} (h : m.walk reference i = some site) (k : Nat) :
    m.walk reference (i + 1 + k) = m.walk site.processor.reference? k := by
  induction i generalizing reference with
  | zero => rw [Nat.zero_add, Nat.add_comm, walk_of_some h]
  | succ i ih =>
      rw [show i + 1 + 1 + k = i + 1 + k + 1 by omega]
      cases hfirst : reference.bind m.last with
      | none => simp [walk_of_none hfirst] at h
      | some first =>
          rw [walk_of_some hfirst] at h ⊢
          exact ih h

/-- A walk that ends comes to no site again, since it would go on from there as before. -/
theorem not_revisits (hpath : ∀ k, m.walk reference k = path[k]?) : ¬ m.Revisits reference := by
  rintro ⟨i, j, site, hlt, hi, hj⟩
  have hlen : j < path.length := by
    rw [hpath] at hj
    exact (List.getElem?_eq_some_iff.1 hj).1
  have hsame := (walk_add hi (path.length - (j + 1))).trans (walk_add hj _).symm
  rw [hpath, hpath, List.getElem?_eq_none (i := j + 1 + _) (by omega), List.getElem?_eq_none_iff] at hsame
  omega

theorem bind_component : reference.bind m.component = (reference.bind m.last).map (·.processor) := by
  cases reference <;> rfl

theorem exists_path {result : Except (List String) (List String)}
    (h : Chain m.component seen reference result) (hresult : result = .ok names) :
    ∃ path : List ProcessedSite, names = path.map (·.processor.className) ∧
      ∀ k, m.walk reference k = path[k]? := by
  induction h generalizing names with
  | stop hnone =>
      rw [bind_component, Option.map_eq_none_iff] at hnone
      exact ⟨[], (Except.ok.inj hresult).symm, fun k => by simp [walk_of_none hnone]⟩
  | again => simp at hresult
  | @step _ name p rest _ hcomp _ _ hprepend ih =>
      obtain ⟨first, hlast, rfl⟩ := Option.map_eq_some_iff.1 hcomp
      obtain ⟨names', rfl⟩ : ∃ names', rest = .ok names' := by
        cases rest with
        | ok names' => exact ⟨names', rfl⟩
        | error _ => simp [hprepend, prepend] at hresult
      obtain ⟨path, rfl, hpath⟩ := ih rfl
      obtain rfl : _ :: _ = names := Except.ok.inj (hprepend.symm.trans hresult)
      refine ⟨first :: path, rfl, fun k => ?_⟩
      cases k with
      | zero => exact hlast
      | succ k => rw [walk_name hlast, hpath, List.getElem?_cons_succ]

theorem exists_again {result : Except (List String) (List String)}
    (h : Chain m.component seen reference result) (hresult : result = .error names) :
    ∃ j site, m.walk reference j = some site ∧
      ((∃ name ∈ seen, m.last name = some site) ∨ ∃ i < j, m.walk reference i = some site) := by
  induction h generalizing names with
  | stop => simp at hresult
  | @again _ name _ hcomp hseen =>
      obtain ⟨first, hlast, -⟩ := Option.map_eq_some_iff.1 hcomp
      exact ⟨0, first, hlast, .inl ⟨name, hseen, hlast⟩⟩
  | @step _ name p rest _ hcomp _ _ hprepend ih =>
      obtain ⟨first, hlast, rfl⟩ := Option.map_eq_some_iff.1 hcomp
      obtain ⟨names', rfl⟩ : ∃ names', rest = .error names' := by
        cases rest with
        | error names' => exact ⟨names', rfl⟩
        | ok _ => simp [hprepend, prepend] at hresult
      obtain ⟨j, site, hj, hbefore⟩ := ih rfl
      refine ⟨j + 1, site, (walk_name hlast j).trans hj, ?_⟩
      obtain ⟨name', hmem, hname'⟩ | ⟨i, hlt, hi⟩ := hbefore
      · rcases List.mem_cons.1 hmem with rfl | hmem
        · -- back at the first site of this walk
          exact .inr ⟨0, by omega, hlast.trans (hlast.symm.trans hname')⟩
        · exact .inl ⟨name', hmem, hname'⟩
      · exact .inr ⟨i + 1, by omega, (walk_name hlast i).trans hi⟩

theorem revisits_of_chain (h : Chain m.component [] reference (.error names)) :
    m.Revisits reference := by
  obtain ⟨j, site, hj, hnone | ⟨i, hlt, hi⟩⟩ := exists_again h rfl
  · simp at hnone
  · exact ⟨i, j, site, hlt, hi, hj⟩

end Module

/-- The values of all expressions that have one can be inserted. -/
def Build.Checked (b : Build) : Prop :=
  ∀ hole ∈ b.item.processor.template.holes.zipIdx, ∀ value,
    Processor.fixedValue? b.values hole.2 = some value → value.metadata? = none →
      checkValue value hole.1.expr hole.1.loc = .ok ()

namespace Module

variable {m : Module} {b : Build}

/-- How the building of a processor ends, by the walk along what it extends. -/
structure Extends (m : Module) (b : Build) : Prop where
  selector : ∀ rules, b.run.1 = .ok rules → ∃ rule path, rules = [(rule.selector, rule)] ∧
    rule.selector = selectorOf (List.map (·.processor.className) (b.item :: path)) ∧
      ∀ k, m.walk b.item.processor.reference? k = path[k]?
  cyclic : (∃ title chain loc, b.run.1 = .error (.styled ⟨.cyclicExtends title chain, loc⟩)) ↔
    b.Checked ∧ m.Revisits b.item.processor.reference?
  independent : ∀ (m' : Module) (b' : Build), b' ∈ m'.builds →
    (∀ name, (m'.component name).map Processor.link = (m.component name).map Processor.link) →
      ∀ p values, Processor.build p b'.cache values = Processor.build p b.cache values

theorem checked_iff (h : b ∈ m.builds) :
    b.Checked ↔ ∀ hole ∈ b.item.processor.template.holes.zipIdx, ∀ failure,
      ¬ Processor.Obstacle b.values hole.1 hole.2 failure := by
  constructor
  · rintro hchecked hole hmem failure (hcode | ⟨-, hfixed, hmetadata, hcheck⟩)
    · obtain ⟨text, htext⟩ := raw_of_mem_constructed (item_mem_of_mem_builds h) hole.1
        (List.fst_mem_of_mem_zipIdx hmem)
      simp [htext, Script.Node.code?, Script.Node.isCode] at hcode
    · simp [hchecked hole hmem _ hfixed hmetadata] at hcheck
  · intro hno hole hmem value hfixed hmetadata
    cases hcode : hole.1.expr.code? with
    | none => exact absurd (.notCode hcode) (hno hole hmem _)
    | some source =>
        cases hcheck : checkValue value hole.1.expr hole.1.loc with
        | ok => rfl
        | error failure => exact absurd (.value hcode hfixed hmetadata hcheck) (hno hole hmem _)

theorem run_cases (h : b ∈ m.builds) :
    (b.Checked ∧
      ∃ css, b.run.1 = b.item.processor.extractRules b.cache css b.item.processor.location) ∨
    ¬ b.Checked ∧ ∃ failure, b.run.1 = .error failure ∧ failure.OfValue := by
  have hitem := item_mem_of_mem_builds h
  have hrun : b.run.1 = _ := Processor.build_fst (fresh_of_mem_constructed hitem).cssText
  rw [checked_iff h]
  cases hholes : (Processor.buildHoles b.values b.item.processor.template.holes 0
      b.item.processor.template.first b.item.processor).1 with
  | ok css =>
      rw [hholes] at hrun
      exact .inl ⟨Processor.no_obstacle hholes, css, hrun⟩
  | error failure =>
      rw [hholes] at hrun
      obtain ⟨hole, hmem, hobstacle⟩ := Processor.exists_obstacle hholes
      obtain ⟨text, htext⟩ := raw_of_mem_constructed hitem hole.1 (List.fst_mem_of_mem_zipIdx hmem)
      obtain ⟨e, hinformed⟩ := informed_of_mem_builds h
      exact .inr ⟨fun hno => hno hole hmem failure hobstacle, failure, hrun,
        ofValue_of_obstacle hinformed htext hobstacle⟩

theorem cyclic_iff (h : b ∈ m.builds) :
    (∃ title chain loc, b.run.1 = .error (.styled ⟨.cyclicExtends title chain, loc⟩)) ↔
      b.Checked ∧ m.Revisits b.item.processor.reference? := by
  have hchain := chain_extended h b.item.processor
  obtain ⟨hchecked, css, hextract⟩ | ⟨hunchecked, failure, hfailure, hvalue⟩ := run_cases h
  · rw [hextract, Processor.extractRules_eq]
    cases hextended : b.item.processor.extended b.cache with
    | error names =>
        rw [hextended] at hchain
        exact iff_of_true ⟨_, _, _, rfl⟩ ⟨hchecked, revisits_of_chain hchain⟩
    | ok names =>
        obtain ⟨path, -, hpath⟩ := exists_path hchain hextended
        exact iff_of_false (by simp) fun hrevisits => not_revisits hpath hrevisits.2
  · refine iff_of_false ?_ fun hrevisits => hunchecked hrevisits.1
    rintro ⟨title, chain, loc, hcyclic⟩
    obtain rfl := Except.error.inj (hfailure.symm.trans hcyclic)
    obtain ⟨_, ⟨_, hcause⟩ | ⟨_, _, hcause⟩⟩ := hvalue
    · simp at hcause
    · simp at hcause

end Module

end CssExtract.Styled
