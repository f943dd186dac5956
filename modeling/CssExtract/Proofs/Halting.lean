import CssExtract.Proofs.Meaning
import CssExtract.Proofs.Evaluation
import Mathlib.Data.Finset.Card
import Mathlib.Tactic.Linarith
import Mathlib.Tactic.Ring

namespace CssExtract.Eval

open Evaluator Script

/-- No array that is reached depends on itself, and no such object is broken. -/
structure Tame (b : Entries Node) (s : Shape) : Prop where
  array : ∀ {name elements}, Reaches b s name → b.get? name = some (.array elements) →
    ¬ Depends b name name
  object : ∀ {name entries}, Reaches b s name → b.get? name = some (.object entries) →
    Depends b name name → ¬ Broken b (.name name)

/-- The name has a meaning, or it is broken. -/
def Determined (b : Entries Node) (name : String) : Prop :=
  Broken b (.name name) ∨ ∃ m, Means b none [] (.name name) m

/-- Evaluation looks the name up, unless it has to look up one of `open_` for that. -/
inductive Visits (b : Entries Node) (open_ : Option String → Prop) : Shape → String → Prop
  | here {name : String} : Visits b open_ (.name name) name
  | name {name x : String} {node : Node} (closed : ¬ open_ (some name)) (bound : b.get? name = some node) :
      Visits b open_ (shape node) x → Visits b open_ (.name name) x
  | entry {entry : Property} {rest : List Property} {x : String} :
      Visits b open_ (shape entry.value) x → Visits b open_ (.object (entry :: rest)) x
  | entries {entry : Property} {rest : List Property} {x : String}
      (fine : isCall entry.value = true ∨ ¬ Broken b (shape entry.value)) :
      Visits b open_ (.object rest) x → Visits b open_ (.object (entry :: rest)) x
  | element {node : Node} {rest : List Node} {x : String} :
      Visits b open_ (shape node) x → Visits b open_ (.array (node :: rest)) x
  | elements {node : Node} {rest : List Node} {x : String} (fine : ¬ Broken b (shape node)) :
      Visits b open_ (.array rest) x → Visits b open_ (.array (node :: rest)) x

/-- Everything that evaluation looks up is determined. -/
def Halts (b : Entries Node) (open_ : Option String → Prop) (s : Shape) : Prop :=
  ∀ x, Visits b open_ s x → Determined b x

variable {b : Entries Node} {open_ open' : Option String → Prop} {s s' : Shape} {name x : String}
  {node : Node}

theorem Tame.mono (h : Tame b s) (hreaches : ∀ x, Reaches b s' x → Reaches b s x) : Tame b s' where
  array hname := h.array (hreaches _ hname)
  object hname := h.object (hreaches _ hname)

theorem Halts.scalar (s : Scalar) : Halts b open_ (.scalar s) := nofun

theorem Halts.error (error : EvalError) : Halts b open_ (.error error) := nofun

theorem Halts.array_nil : Halts b open_ (.array []) := nofun

theorem Halts.object_nil : Halts b open_ (.object []) := nofun

theorem halts_array_cons {nodes : List Node} : Halts b open_ (.array (node :: nodes)) ↔
    Halts b open_ (shape node) ∧ (¬ Broken b (shape node) → Halts b open_ (.array nodes)) := by
  constructor
  · exact fun h => ⟨fun x hx => h x (.element hx), fun hfine x hx => h x (.elements hfine hx)⟩
  · rintro ⟨hnode, hnodes⟩ x hx
    cases hx with
    | element hx => exact hnode x hx
    | elements hfine hx => exact hnodes hfine x hx

theorem halts_object_cons {entry : Property} {rest : List Property} :
    Halts b open_ (.object (entry :: rest)) ↔ Halts b open_ (shape entry.value) ∧
      (isCall entry.value = true ∨ ¬ Broken b (shape entry.value) → Halts b open_ (.object rest)) := by
  constructor
  · exact fun h => ⟨fun x hx => h x (.entry hx), fun hfine x hx => h x (.entries hfine hx)⟩
  · rintro ⟨hentry, hrest⟩ x hx
    cases hx with
    | entry hx => exact hentry x hx
    | entries hfine hx => exact hrest hfine x hx

theorem Halts.name_bound (h : Halts b open_ (.name name)) (hclosed : ¬ open_ (some name))
    (hbound : b.get? name = some node) : Halts b open_ (shape node) := fun x hx => h x (.name hclosed hbound hx)

theorem Halts.of_open (h : Determined b name) (hopen : open_ (some name)) : Halts b open_ (.name name) := by
  intro x hx
  cases hx with
  | here => exact h
  | name hclosed => exact absurd hopen hclosed

theorem Halts.of_unbound (h : Determined b name) (hunbound : b.get? name = none) :
    Halts b open_ (.name name) := by
  intro x hx
  cases hx with
  | here => exact h
  | name _ hbound => simp [hunbound] at hbound

theorem Halts.of_bound (h : Determined b name) (hbound : b.get? name = some node)
    (hnode : Halts b open_ (shape node)) : Halts b open_ (.name name) := by
  intro x hx
  cases hx with
  | here => exact h
  | name _ hbound' hx => exact hnode x (Option.some.inj (hbound.symm.trans hbound') ▸ hx)

theorem Visits.mono (h : Visits b open' s x) (hopen : ∀ name, open_ (some name) → open' (some name)) :
    Visits b open_ s x := by
  induction h with
  | here => exact .here
  | name hclosed hbound _ ih => exact .name (fun hname => hclosed (hopen _ hname)) hbound ih
  | entry _ ih => exact .entry ih
  | entries hfine _ ih => exact .entries hfine ih
  | element _ ih => exact .element ih
  | elements hfine _ ih => exact .elements hfine ih

theorem Halts.mono (h : Halts b open_ s) (hopen : ∀ name, open_ (some name) → open' (some name)) :
    Halts b open' s := fun x hx => h x (hx.mono hopen)

def Opened (open_ : Option String → Prop) (owner : Option String) : Option String → Prop := fun o =>
  open_ o ∨ o = owner

/-- What is looked up is looked up without opening a name, or for the binding of the name. -/
theorem Visits.avoid (h : Visits b open_ s x) (name : String) : Visits b (Opened open_ (some name)) s x ∨
    ∃ node, b.get? name = some node ∧ Visits b (Opened open_ (some name)) (shape node) x := by
  induction h with
  | here => exact .inl .here
  | @name name' x node hclosed hbound _ ih =>
      obtain hx | hx := ih
      · by_cases hname : name' = name
        · exact .inr ⟨node, hname ▸ hbound, hx⟩
        · refine .inl (.name ?_ hbound hx)
          exact fun hopen => hopen.elim hclosed fun heq => hname (Option.some.inj heq)
      · exact .inr hx
  | entry _ ih => exact ih.imp_left .entry
  | entries hfine _ ih => exact ih.imp_left (.entries hfine)
  | element _ ih => exact ih.imp_left .element
  | elements hfine _ ih => exact ih.imp_left (.elements hfine)

theorem Halts.of_opened (h : Determined b name) (hbound : b.get? name = some node)
    (hnode : Halts b (Opened open_ (some name)) (shape node)) : Halts b open_ (.name name) := by
  refine .of_bound h hbound fun x hx => hnode x ?_
  obtain hx | ⟨node', hbound', hx⟩ := hx.avoid name
  · exact hx
  · exact Option.some.inj (hbound.symm.trans hbound') ▸ hx

theorem Halts.of_closed {owner : Option String} (h : Halts b (Opened open_ owner) s) (hclosed : ¬ open_ owner)
    (howner : ∀ name, owner = some name → Halts b open_ (.name name)) : Halts b open_ s := by
  intro x hx
  cases owner with
  | none => exact h x (hx.mono fun name hopen => hopen.resolve_right nofun)
  | some name =>
      obtain hx | ⟨node, hbound, hx⟩ := hx.avoid name
      · exact h x hx
      · exact (howner name rfl).name_bound hclosed hbound x (hx.mono fun _ => .inl)

theorem Visits.reaches (h : Visits b open_ s x) : Reaches b s x := by
  induction h with
  | here => exact .here
  | name _ bound _ ih => exact .name bound ih
  | entry _ ih => exact .entry (.head _) ih
  | entries _ _ ih => exact ih.object_tail _
  | element _ ih => exact .element (.head _) ih
  | elements _ _ ih => exact ih.array_tail _

theorem Visits.congr {b' : Entries Node} {y : String} (hb : AgreeBut x b b') (h : Visits b open_ s y)
    (hs : ¬ Reaches b s x) : Visits b' open_ s y := by
  induction h with
  | here => exact .here
  | @name name y node closed bound _ ih =>
      have hne : name ≠ x := fun h => hs (h ▸ .here)
      exact .name closed ((hb name hne).trans bound) (ih fun h => hs (.name bound h))
  | entry _ ih => exact .entry (ih fun h => hs (.entry (.head _) h))
  | entries fine _ ih =>
      refine .entries (fine.imp_right fun fine => ?_) (ih fun h => hs (h.object_tail _))
      exact fun h => fine ((broken_congr hb fun h => hs (.entry (.head _) h)).1 h)
  | element _ ih => exact .element (ih fun h => hs (.element (.head _) h))
  | elements fine _ ih =>
      refine .elements (fun h => fine ?_) (ih fun h => hs (h.array_tail _))
      exact (broken_congr hb fun h => hs (.element (.head _) h)).1 h

/-- What does not reach a name halts as it does when the name is bound anew. -/
theorem Halts.congr {b' : Entries Node} (hb : AgreeBut x b b') (h : Halts b open_ s)
    (hs : ¬ Reaches b s x) : Halts b' open_ s := by
  intro y hy
  have hy := hy.congr hb.symm (not_reaches_congr hb hs)
  have hclear : ¬ Reaches b (.name y) x := by
    rw [reaches_name_iff]
    rintro (rfl | hdepends)
    · exact hs hy.reaches
    · exact hs (hy.reaches.trans hdepends)
  exact (h y hy).imp (·.congr hb hclear) fun ⟨m, hmeans⟩ => ⟨m, hmeans.congr hb hclear⟩

/-- Evaluation may come to the name without coming to a name of an object before. -/
inductive Chains (b : Entries Node) : Shape → String → Prop
  | here {name : String} : Chains b (.name name) name
  | name {name x : String} {node : Node} (bound : b.get? name = some node)
      (noObject : ∀ entries, node ≠ .object entries) :
      Chains b (shape node) x → Chains b (.name name) x
  | entry {entries : List Property} {entry : Property} {x : String} (mem : entry ∈ entries) :
      Chains b (shape entry.value) x → Chains b (.object entries) x
  | element {elements : List Node} {node : Node} {x : String} (mem : node ∈ elements) :
      Chains b (shape node) x → Chains b (.array elements) x

theorem Chains.reaches (h : Chains b s x) : Reaches b s x := by
  induction h with
  | here => exact .here
  | name bound _ _ ih => exact .name bound ih
  | entry mem _ ih => exact .entry mem ih
  | element mem _ ih => exact .element mem ih

theorem Chains.array_tail {nodes : List Node} (h : Chains b (.array nodes) x) (node : Node) :
    Chains b (.array (node :: nodes)) x := by
  cases h with
  | element hmem h => exact .element (.tail _ hmem) h

theorem Chains.object_tail {rest : List Property} (h : Chains b (.object rest) x) (entry : Property) :
    Chains b (.object (entry :: rest)) x := by
  cases h with
  | entry hmem h => exact .entry (.tail _ hmem) h

theorem Chains.trans (h : Chains b s name) (hbound : b.get? name = some node)
    (hnode : ∀ entries, node ≠ .object entries) (h' : Chains b (shape node) x) : Chains b s x := by
  induction h with
  | here => exact .name hbound hnode h'
  | name bound noObject _ ih => exact .name bound noObject (ih hbound)
  | entry mem _ ih => exact .entry mem (ih hbound)
  | element mem _ ih => exact .element mem (ih hbound)

theorem not_chains_self (htame : Tame b (.name name)) (hbound : b.get? name = some node)
    (hnode : ∀ entries, node ≠ .object entries)
    (hnext : ∀ y node', shape node = .name y → b.get? y = some node' →
      (∀ entries, node' ≠ .object entries) → ¬ Chains b (shape node') y) :
    ¬ Chains b (shape node) name := by
  intro h
  cases hs : shape node with
  | scalar | error =>
      rw [hs] at h
      cases h
  | name y =>
      have hy : Chains b (.name y) name := hs ▸ h
      cases hy with
      | here => exact hnext name node hs hbound hnode h
      | @name _ _ node' bound noObject hy =>
          exact hnext y node' hs bound noObject (hy.trans hbound hnode (hs ▸ .here))
  | array elements =>
      obtain rfl := shape_eq_array hs
      exact htame.array .here hbound ⟨_, hbound, h.reaches⟩
  | object entries => exact hnode entries (shape_eq_object hs)

theorem Means.not_chains {owner : Option String} {path : List Nat} {m : Meaning} (htame : Tame b s)
    (h : Means b owner path s m) : ∀ name node, s = .name name → b.get? name = some node →
      (∀ entries, node ≠ .object entries) → ¬ Chains b (shape node) name := by
  induction h with
  | scalar | object | array => simp
  | global unbound =>
      rintro name node hs hbound
      obtain rfl := Shape.name.inj hs
      simp [unbound] at hbound
  | name bound _ ih =>
      rintro name node hs hbound hnode
      obtain rfl := Shape.name.inj hs
      obtain rfl := Option.some.inj (bound.symm.trans hbound)
      exact not_chains_self htame hbound hnode (ih (htame.mono fun _ => .name bound))

theorem Broken.not_chains (htame : Tame b s) (h : Broken b s) : ∀ name node, s = .name name →
    b.get? name = some node → (∀ entries, node ≠ .object entries) → ¬ Chains b (shape node) name := by
  induction h with
  | error | entry | element => simp
  | unbound unbound =>
      rintro name node hs hbound
      obtain rfl := Shape.name.inj hs
      simp [unbound] at hbound
  | name bound _ ih =>
      rintro name node hs hbound hnode
      obtain rfl := Shape.name.inj hs
      obtain rfl := Option.some.inj (bound.symm.trans hbound)
      exact not_chains_self htame hbound hnode (ih (htame.mono fun _ => .name bound))

theorem Determined.not_chains (htame : Tame b (.name name)) (h : Determined b name)
    (hbound : b.get? name = some node) (hnode : ∀ entries, node ≠ .object entries) :
    ¬ Chains b (shape node) name := by
  obtain h | ⟨m, h⟩ := h
  · exact h.not_chains htame name node rfl hbound hnode
  · exact h.not_chains htame name node rfl hbound hnode

open Classical in
noncomputable def chained (b : Entries Node) (s : Shape) : Finset String :=
  (b.map (·.1)).toFinset.filter fun x => Chains b s x

theorem mem_chained : x ∈ chained b s ↔ x ∈ b.map (·.1) ∧ Chains b s x := by
  simp [chained]

noncomputable def rank (b : Entries Node) (s : Shape) : Nat := (chained b s).card

theorem rank_le (b : Entries Node) (s : Shape) : rank b s ≤ b.length := by
  calc rank b s ≤ (b.map (·.1)).toFinset.card :=
        Finset.card_le_card fun x hx => List.mem_toFinset.2 (mem_chained.1 hx).1
    _ ≤ (b.map (·.1)).length := List.toFinset_card_le _
    _ = b.length := List.length_map _

theorem rank_mono (h : ∀ x, Chains b s' x → Chains b s x) : rank b s' ≤ rank b s :=
  Finset.card_le_card fun x hx => mem_chained.2 ((mem_chained.1 hx).imp_right (h x))

theorem rank_lt (htame : Tame b (.name name)) (h : Determined b name) (hbound : b.get? name = some node)
    (hnode : ∀ entries, node ≠ .object entries) : rank b (shape node) < rank b (.name name) := by
  refine Finset.card_lt_card ((Finset.ssubset_iff_of_subset fun x hx => ?_).2 ⟨name, ?_, fun hself => ?_⟩)
  · exact mem_chained.2 ((mem_chained.1 hx).imp_right (.name hbound hnode))
  · exact mem_chained.2 ⟨List.mem_map_of_mem (Styled.mem_of_get? hbound), .here⟩
  · exact h.not_chains htame hbound hnode (mem_chained.1 hself).2

/-- A bound for how deep lookups may go. -/
noncomputable def weight (b : Entries Node) (known : Entries Point) (s : Shape) : Nat :=
  (b.countP fun x => (known.get? x.1).isNone) * (b.length + 1) + rank b s

theorem weight_lt_maxDepth (e : Evaluator) (s : Shape) : weight e.bindings e.known s < maxDepth e := by
  have hrank := rank_le e.bindings s
  have hcount : e.bindings.countP (fun x => (e.known.get? x.1).isNone) ≤ e.bindings.length :=
    List.countP_le_length
  calc weight e.bindings e.known s
      ≤ e.bindings.length * (e.bindings.length + 1) + e.bindings.length :=
        Nat.add_le_add (Nat.mul_le_mul_right _ hcount) hrank
    _ < maxDepth e := by simp only [maxDepth]; ring_nf; omega

theorem weight_mono {known known' : Entries Point}
    (hknown : ∀ {name p}, known.get? name = some p → known'.get? name = some p)
    (hs : ∀ x, Chains b s' x → Chains b s x) : weight b known' s' ≤ weight b known s := by
  refine Nat.add_le_add (Nat.mul_le_mul_right _ (List.countP_mono_left fun x _ hx => ?_)) (rank_mono hs)
  cases hp : known.get? x.1 with
  | none => rfl
  | some p => simp [hknown hp] at hx

/-- Knowing one more name outweighs all names that may come before the next object. -/
theorem weight_set_lt {known : Entries Point} (hbound : b.get? name = some node)
    (hunknown : known.get? name = none) (p : Point) (s : Shape) :
    weight b (known.set name p) s < weight b known (.name name) := by
  have hless : Styled.unknown ⟨b, known.set name p, {}⟩ < Styled.unknown ⟨b, known, {}⟩ :=
    Styled.unknown_lt hbound hunknown rfl rfl
  simp only [Styled.unknown] at hless
  have hrank := rank_le b s
  simp only [weight]
  -- one unknown name less is worth `b.length + 1`, and no rank is more than `b.length`
  nlinarith

end CssExtract.Eval
