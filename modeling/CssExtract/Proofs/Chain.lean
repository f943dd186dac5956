import CssExtract.Proofs.Builds
import Mathlib.Data.List.Perm.Subperm

namespace CssExtract.Styled

open Eval

variable {e : Evaluator} {name : String} {p : Processor} {point base : Point} {id fuel : Nat}
  {ids : List Nat}

def prepend (name : String) : Except (List String) (List String) → Except (List String) (List String)
  | .ok names => .ok (name :: names)
  | .error names => .error (name :: names)

theorem classChain_scalar (g : Graph) (fuel : Nat) (ids : List Nat) (s : Scalar) :
    classChain g fuel ids (.scalar s) = .ok [] := by
  cases fuel <;> rfl

theorem classChain_container {g : Graph} {className : String}
    (h : g.metadata? (.container id) = some (className, base)) :
    classChain g (fuel + 1) ids (.container id) =
      if id ∈ ids then .error [] else prepend className (classChain g fuel (id :: ids) base) := by
  simp only [classChain, h]
  split_ifs
  · rfl
  · cases classChain g fuel (id :: ids) base <;> rfl

theorem Settled.metadata? {comp : String → Option Processor} (h : Settled comp e name p)
    (hid : e.known.get? name = some (.container id)) :
    ∃ base, e.graph.metadata? (.container id) = some (p.className, base) ∧
      Leads comp e p.reference? base := by
  obtain ⟨id', inner, base, hknown, houter, hinner, hbase⟩ := h
  obtain rfl : id = id' := by simpa [hid] using hknown
  refine ⟨base, ?_, hbase⟩
  simp [Graph.metadata?, Graph.container?, houter, hinner, Entries.get?, outerEntry, innerEntry,
    metadataKey]

/-- The class names on the way from a reference through the components that are extended. The way
ends at a name without a component, and in an error at a name that has been seen. -/
inductive Chain (comp : String → Option Processor) :
    List String → Option String → Except (List String) (List String) → Prop
  | stop {seen : List String} {reference : Option String} (hnone : reference.bind comp = none) :
      Chain comp seen reference (.ok [])
  | again {seen : List String} {name : String} {p : Processor} (hcomp : comp name = some p)
      (hseen : name ∈ seen) : Chain comp seen (some name) (.error [])
  | step {seen : List String} {name : String} {p : Processor}
      {rest result : Except (List String) (List String)} (hcomp : comp name = some p) (hnew : name ∉ seen)
      (hrest : Chain comp (name :: seen) p.reference? rest) (hresult : result = prepend p.className rest) :
      Chain comp seen (some name) result

variable {comp : String → Option Processor} {reference : Option String} {seen : List String}
  {result : Except (List String) (List String)}

def Processor.link (p : Processor) : String × Option String := (p.className, p.reference?)

/-- Chains depend only on the links of components, and there is one at most. -/
theorem Chain.unique {comp' : String → Option Processor}
    {result' : Except (List String) (List String)}
    (hlink : ∀ name, (comp' name).map Processor.link = (comp name).map Processor.link)
    (h : Chain comp seen reference result) (h' : Chain comp' seen reference result') :
    result = result' := by
  have hnone {name} : comp name = none ↔ comp' name = none := by
    rw [← Option.map_eq_none_iff (f := Processor.link), ← hlink, Option.map_eq_none_iff]
  induction h generalizing result' with
  | stop hstop =>
      cases h' with
      | stop => rfl
      | again hcomp => simp [hnone.1 hstop] at hcomp
      | step hcomp => simp [hnone.1 hstop] at hcomp
  | again hcomp hseen =>
      cases h' with
      | stop hstop => simp [hnone.2 hstop] at hcomp
      | again => rfl
      | step _ hnew => exact absurd hseen hnew
  | @step _ name p _ _ hcomp hnew hrest hresult ih =>
      cases h' with
      | stop hstop => simp [hnone.2 hstop] at hcomp
      | again _ hseen => exact absurd hseen hnew
      | @step _ _ p' _ _ hcomp' _ hrest' hresult' =>
          have hsame : p'.link = p.link := by simpa [hcomp, hcomp'] using hlink name
          obtain ⟨hclass, hreference⟩ := Prod.mk.inj hsame
          rw [hreference] at hrest'
          rw [hresult, hresult', hclass, ih hrest']

theorem leads_component (hcomp : comp name = some p) :
    Leads comp e (some name) point ↔ e.known.get? name = some point := by
  rw [Leads, Option.filter_some, if_pos (by simp [hcomp])]

theorem Leads.scalar (h : Leads comp e reference point) (hcomp : reference.bind comp = none) :
    ∃ s, point = .scalar s := by
  have hend : reference.filter (fun name => (comp name).isSome) = none := by
    cases reference with
    | none => rfl
    | some name => simpa using hcomp
  simpa only [Leads, hend] using h

structure Met (comp : String → Option Processor) (e : Evaluator) (seen : List String)
    (ids : List Nat) : Prop where
  mem_iff : ∀ {name p id}, comp name = some p → e.known.get? name = some (.container id) →
    (name ∈ seen ↔ id ∈ ids)
  nodup : ids.Nodup
  lt : ∀ id ∈ ids, id < e.graph.containers.size

theorem Met.nil (comp : String → Option Processor) (e : Evaluator) : Met comp e [] [] :=
  ⟨by simp, List.nodup_nil, by simp⟩

theorem Met.cons (h : Met comp e seen ids) (hknown : Known comp e) (hcomp : comp name = some p)
    (hname : e.known.get? name = some (.container id)) (hnew : id ∉ ids) :
    Met comp e (name :: seen) (id :: ids) where
  mem_iff {name' p' id'} hcomp' hname' := by
    have hhere : name' = name ↔ id' = id := by
      constructor
      · rintro rfl
        simpa [hname] using hname'.symm
      · rintro rfl
        exact hknown.distinct hcomp' hcomp hname' hname
    simp only [List.mem_cons, hhere, h.mem_iff hcomp' hname']
  nodup := List.nodup_cons.2 ⟨hnew, h.nodup⟩
  lt := by
    obtain ⟨_, hsame, hlt⟩ := hknown.component hcomp hname
    obtain rfl := Point.container.inj hsame
    exact List.forall_mem_cons.2 ⟨hlt, h.lt⟩

theorem Met.length_le (h : Met comp e seen ids) : ids.length ≤ e.graph.containers.size := by
  have hsub : ids ⊆ List.range e.graph.containers.size := fun id hid => List.mem_range.2 (h.lt id hid)
  simpa using (List.subperm_of_subset h.nodup hsub).length_le

/-- The walk through the graph is a chain. The fuel lasts, since no container is met twice. -/
theorem chain_classChain (h : Complete comp e) (hleads : Leads comp e reference point)
    (hmet : Met comp e seen ids) (hfuel : e.graph.containers.size < fuel + ids.length) :
    Chain comp seen reference (classChain e.graph fuel ids point) := by
  induction fuel generalizing reference point seen ids with
  | zero =>
      have := hmet.length_le
      omega
  | succ fuel ih =>
      cases hcomp : reference.bind comp with
      | none =>
          obtain ⟨s, rfl⟩ := hleads.scalar hcomp
          rw [classChain_scalar]
          exact .stop hcomp
      | some p =>
          obtain ⟨name, rfl, hcomp⟩ := Option.bind_eq_some_iff.1 hcomp
          have hname : e.known.get? name = some point := (leads_component hcomp).1 hleads
          obtain ⟨id, rfl, -⟩ := h.known.component hcomp hname
          obtain ⟨base, hmetadata, hbase⟩ := (h.settled hcomp).metadata? hname
          have hmem := hmet.mem_iff hcomp hname
          rw [classChain_container hmetadata]
          split_ifs with hid
          · exact .again hcomp (hmem.2 hid)
          · have hrest := ih hbase (hmet.cons h.known hcomp hname hid) (by simp; omega)
            exact .step hcomp (fun hseen => hid (hmem.1 hseen)) hrest rfl

def Processor.extended (p : Processor) (cache : ValueCache) : Except (List String) (List String) :=
  match p.reference? with
  | some name => cache.classNames name
  | none => .ok []

theorem Processor.extractRules_eq (p : Processor) (cache : ValueCache) (cssText : String)
    (loc : Option Location) :
    p.extractRules cache cssText loc =
      match p.extended cache with
      | .error names => .error (.styled ⟨.cyclicExtends p.title (selectorOf (p.className :: names)), loc⟩)
      | .ok names =>
        .ok [(selectorOf (p.className :: names),
          ⟨selectorOf (p.className :: names), cssText, p.className, p.displayName, loc.map (·.start)⟩)] := by
  simp only [extractRules, extended, reference?]
  cases p.component with
  | reference name source foreign => cases foreign <;> rfl
  | tag | function => rfl

namespace Module

variable {m : Module} {b : Build}

theorem chain_extended (h : b ∈ m.builds) (p : Processor) :
    Chain m.component [] p.reference? (p.extended b.cache) := by
  obtain ⟨e, hinformed⟩ := informed_of_mem_builds h
  simp only [Processor.extended]
  cases p.reference? with
  | none => exact .stop rfl
  | some name =>
      simp only [ValueCache.classNames, hinformed.graph]
      cases hcomp : m.component name with
      | some p' =>
          obtain ⟨point, hpoint⟩ := hinformed.sample hcomp
          have hleads := (leads_component hcomp).2 (hinformed.sampled.component hcomp hpoint)
          simp only [hpoint]
          exact chain_classChain hinformed.complete hleads (.nil _ _) (by simp)
      | none =>
          have hstop : Chain m.component [] (some name) (.ok []) := .stop hcomp
          cases hpoint : b.cache.points.get? name with
          | none => exact hstop
          | some point =>
              obtain ⟨s, rfl, -⟩ := hinformed.sampled.constant hcomp hpoint
              simpa only [classChain_scalar] using hstop

end Module

end CssExtract.Styled
