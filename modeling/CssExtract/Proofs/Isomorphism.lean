import CssExtract.Eval.Graph
import Mathlib.Data.List.Forall2
import Mathlib.Data.List.Perm.Subperm
import Mathlib.Data.List.Range
import Mathlib.Logic.Relator

namespace CssExtract.Eval

inductive Matches (r : Point → Point → Prop) : Container → Container → Prop
  | array {items items' : List Point} (h : List.Forall₂ r items items') :
      Matches r (.array items) (.array items')
  | object {entries entries' : Entries Point}
      (h : List.Forall₂ (fun x y => x.1 = y.1 ∧ r x.2 y.2) entries entries') :
      Matches r (.object entries) (.object entries')

/-- Points of two graphs that are the same but for the numbers of their containers. -/
structure Isomorphism (r : Point → Point → Prop) (g g' : Graph) : Prop where
  unique : Relator.BiUnique r
  scalar : ∀ {s p}, r (.scalar s) p → p = .scalar s
  container : ∀ {id p}, r (.container id) p → ∃ id' c c', p = .container id' ∧
    g.containers[id]? = some c ∧ g'.containers[id']? = some c' ∧ Matches r c c'

def SameValue (g : Graph) (p : Point) (g' : Graph) (p' : Point) : Prop :=
  ∃ r, Isomorphism r g g' ∧ r p p'

variable {r : Point → Point → Prop} {g g' : Graph} {path path' : List Nat}

theorem Isomorphism.items (h : Isomorphism r g g') {id id' : Nat} {items items' : List Point}
    (hid : r (.container id) (.container id')) (hc : g.containers[id]? = some (.array items))
    (hc' : g'.containers[id']? = some (.array items')) : List.Forall₂ r items items' := by
  obtain ⟨_, c, c', heq, hcc, hcc', hmatches⟩ := h.container hid
  obtain rfl := Point.container.inj heq
  obtain rfl := Option.some.inj (hc.symm.trans hcc)
  obtain rfl := Option.some.inj (hc'.symm.trans hcc')
  cases hmatches with
  | array hitems => exact hitems

theorem Isomorphism.entries (h : Isomorphism r g g') {id id' : Nat} {entries entries' : Entries Point}
    (hid : r (.container id) (.container id')) (hc : g.containers[id]? = some (.object entries))
    (hc' : g'.containers[id']? = some (.object entries')) :
    List.Forall₂ (fun x y => x.1 = y.1 ∧ r x.2 y.2) entries entries' := by
  obtain ⟨_, c, c', heq, hcc, hcc', hmatches⟩ := h.container hid
  obtain rfl := Point.container.inj heq
  obtain rfl := Option.some.inj (hc.symm.trans hcc)
  obtain rfl := Option.some.inj (hc'.symm.trans hcc')
  cases hmatches with
  | object hentries => exact hentries

theorem length_le_of_nodup {n : Nat} (hpath : path.Nodup) (hlt : ∀ i ∈ path, i < n) : path.length ≤ n := by
  have hsub : path ⊆ List.range n := fun i hi => List.mem_range.2 (hlt i hi)
  simpa using (List.subperm_of_subset hpath hsub).length_le

structure Reserve (g : Graph) (fuel : Nat) (path : List Nat) : Prop where
  nodup : path.Nodup
  lt : ∀ i ∈ path, i < g.containers.size
  enough : g.containers.size < fuel + path.length

theorem Reserve.pos {fuel : Nat} (h : Reserve g fuel path) : fuel ≠ 0 := by
  have hle := length_le_of_nodup h.nodup h.lt
  have henough := h.enough
  omega

theorem Reserve.cons {fuel id : Nat} {c : Container} (h : Reserve g (fuel + 1) path)
    (hid : path.idxOf? id = none) (hc : g.containers[id]? = some c) : Reserve g fuel (id :: path) where
  nodup := List.nodup_cons.2 ⟨List.idxOf?_eq_none_iff.1 hid, h.nodup⟩
  lt := by
    obtain ⟨hlt, -⟩ := Array.getElem?_eq_some_iff.1 hc
    simpa [hlt] using h.lt
  enough := by
    have henough := h.enough
    simp only [List.length_cons]
    omega

end CssExtract.Eval
