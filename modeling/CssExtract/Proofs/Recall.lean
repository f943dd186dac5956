import CssExtract.Proofs.Placement
import Mathlib.Logic.Nontrivial.Basic

namespace CssExtract.Eval

open Evaluator Script

variable {b : Entries Node} {label label' : Labels} {open_ open' : Option String → Prop}
  {loose touched : Nat → Prop} {claims : Place → Prop} {e e' : Evaluator} {owner : Option String}
  {path : List Nat} {s : Shape} {p : Point} {q : Place} {name : String} {node : Node}

theorem Sound.enter (h : Sound b label open_ loose e)
    (hunknown : ∀ name, owner = some name → e.known.get? name = none) :
    Sound b label (Opened open_ owner) loose e :=
  { h with
    owned := fun hq => (h.owned hq).imp_left .inl
    known := fun hp hclosed => h.known hp fun hopen => hclosed (.inl hopen)
    halts := fun hp hclosed => (h.halts hp fun hopen => hclosed (.inl hopen)).mono fun _ => .inl
    opened := fun {name p} hp hopen => by
      obtain hopen | howner := hopen
      · exact h.opened hp hopen
      · simp [hunknown name howner.symm] at hp }

theorem isSome_get?_set {known : Entries Point} {name' : String} (h : (known.get? name').isSome)
    (name : String) (p : Point) : ((known.set name p).get? name').isSome := by
  by_cases hname : name' = name
  · simp [hname]
  · rwa [Entries.get?_set_of_ne hname]

/-- The value of a name that is closed is its meaning. -/
theorem Sound.know (h : Sound b label open_ loose e) (hclosed : ¬ open_ (some name))
    (hitem : Item b label none [] (.name name) p) (hhalts : Halts b open_ (.name name)) :
    Sound b label open_ loose { e with known := e.known.set name p } := by
  refine { h with owned := ?owned, known := ?known, halts := ?halts, opened := ?opened }
  case owned =>
    intro id q hq
    refine (h.owned hq).imp_right ?_
    rintro ⟨name', howner, hknown⟩
    exact ⟨name', howner, isSome_get?_set hknown name _⟩
  case known =>
    intro name' p' hp hclosed'
    by_cases hname : name' = name
    · subst hname
      obtain rfl : p = p' := by simpa using hp
      exact hitem
    · exact h.known (by simpa [Entries.get?_set_of_ne hname] using hp) hclosed'
  case halts =>
    intro name' p' hp hclosed'
    by_cases hname : name' = name
    · exact hname ▸ hhalts
    · exact h.halts (by simpa [Entries.get?_set_of_ne hname] using hp) hclosed'
  case opened =>
    intro name' p' hp hopen
    have hname : name' ≠ name := fun heq => hclosed (heq ▸ hopen)
    exact h.opened (by simpa [Entries.get?_set_of_ne hname] using hp) hopen

/-- The value of a name that is open is a container with a place in its binding. -/
theorem Sound.announce {id : Nat} (h : Sound b label open_ loose e) (hopen : open_ (some name))
    (hmeans : Means b none [] (.name name) (.place ⟨some name, path, s⟩))
    (hlabel : label id = some ⟨some name, path, s⟩) :
    Sound b label open_ loose { e with known := e.known.set name (.container id) } := by
  refine { h with owned := ?owned, known := ?known, halts := ?halts, opened := ?opened }
  case owned =>
    intro id' q hq
    refine (h.owned hq).imp_right ?_
    rintro ⟨name', howner, hknown⟩
    exact ⟨name', howner, isSome_get?_set hknown name _⟩
  case known =>
    intro name' p' hp hclosed
    have hname : name' ≠ name := fun heq => hclosed (heq ▸ hopen)
    exact h.known (by simpa [Entries.get?_set_of_ne hname] using hp) hclosed
  case halts =>
    intro name' p' hp hclosed
    have hname : name' ≠ name := fun heq => hclosed (heq ▸ hopen)
    exact h.halts (by simpa [Entries.get?_set_of_ne hname] using hp) hclosed
  case opened =>
    intro name' p' hp hopen'
    by_cases hname : name' = name
    · subst hname
      obtain rfl : Point.container id = p' := by simpa using hp
      exact ⟨_, hmeans, .container hlabel, path, s, rfl⟩
    · exact h.opened (by simpa [Entries.get?_set_of_ne hname] using hp) hopen'

theorem Sound.leave (h : Sound b label (Opened open_ (some name)) loose e) (hclosed : ¬ open_ (some name))
    (hp : e.known.get? name = some p) (hitem : Item b label none [] (.name name) p)
    (hhalts : Halts b open_ (.name name)) : Sound b label open_ loose e := by
  refine { h with owned := ?owned, known := ?known, halts := ?halts,
                  opened := fun hp hopen => h.opened hp (.inl hopen) }
  case owned =>
    intro id q hq
    rcases h.owned hq with (hopen | howner) | hknown
    · exact .inl hopen
    · exact .inr ⟨name, howner, by simp [hp]⟩
    · exact .inr hknown
  case known =>
    intro name' p' hp' hclosed'
    by_cases hname : name' = name
    · subst hname
      exact Option.some.inj (hp.symm.trans hp') ▸ hitem
    · exact h.known hp' fun hopen => hopen.elim hclosed' fun heq => hname (Option.some.inj heq)
  case halts =>
    -- what was known before may have halted only because the name was open
    intro name' p' hp' hclosed'
    by_cases hname : name' = name
    · exact hname ▸ hhalts
    · refine (h.halts hp' fun hopen => ?_).of_closed hclosed fun _ heq => Option.some.inj heq ▸ hhalts
      exact hopen.elim hclosed' fun heq => hname (Option.some.inj heq)

theorem Item.without {owner' : Option String} (h : Item b label owner' path s p) (hne : owner' ≠ owner)
    (hbroken : ∀ name, owner = some name → Broken b (.name name)) :
    Item b (label.without owner) owner' path s p := by
  obtain ⟨hfine, m, hmeans, hshows⟩ := h
  refine ⟨hfine, m, hmeans, ?_⟩
  cases hshows with
  | scalar s => exact .scalar s
  | @container id q hq =>
      refine .container (Labels.without_eq_some_iff.2 ⟨hq, ?_⟩)
      obtain howner | ⟨name, howner, -, hname⟩ := hmeans.owner_eq_or
      · rwa [howner]
      · rintro rfl
        exact hfine (hname (hbroken name howner))

/-- The containers of a binding that is broken, or of no binding, are held by no others. -/
theorem Sound.drop (h : Sound b label (Opened open_ owner) (fun id => loose id ∨ OwnedBy owner label id) e)
    (hclosed : ¬ open_ owner) (hbroken : ∀ name, owner = some name → Broken b (.name name))
    (hhalts : ∀ name, owner = some name → Halts b open_ (.name name))
    (hbindings : e'.bindings = e.bindings) (hgraph : e'.graph = e.graph)
    (hknown : ∀ {name p}, e'.known.get? name = some p ↔ e.known.get? name = some p ∧ some name ≠ owner) :
    Sound b (label.without owner) open_ loose e' where
  bindings := hbindings.trans h.bindings
  lt hq := by
    rw [Evaluator.size, hgraph]
    exact h.lt (Labels.without_eq_some_iff.1 hq).1
  injective hq hq' := h.injective (Labels.without_eq_some_iff.1 hq).1 (Labels.without_eq_some_iff.1 hq').1
  owned {id q} hq := by
    obtain ⟨hq, hne⟩ := Labels.without_eq_some_iff.1 hq
    rcases h.owned hq with (hopen | howner) | ⟨name, howner, hsome⟩
    · exact .inl hopen
    · exact absurd howner hne
    · obtain ⟨p, hp⟩ := Option.isSome_iff_exists.1 hsome
      exact .inr ⟨name, howner, by simp [hknown.2 ⟨hp, howner ▸ hne⟩]⟩
  within hq := h.within (Labels.without_eq_some_iff.1 hq).1
  content {id q} hq hfixed := by
    obtain ⟨hq, hne⟩ := Labels.without_eq_some_iff.1 hq
    have hfixed' : ¬ (loose id ∨ OwnedBy owner label id) := by
      rintro (hloose | ⟨q', hq', howner⟩)
      · exact hfixed hloose
      · obtain rfl := Option.some.inj (hq.symm.trans hq')
        exact hne howner
    obtain ⟨c, hc, hcontent⟩ := h.content hq hfixed'
    refine ⟨c, hgraph ▸ hc, hcontent.imp (fun _ hitem => hitem.without hne hbroken) fun _ hentry => ?_⟩
    exact hentry.imp_right fun hitem => hitem.without hne hbroken
  known {name p} hp hclosed' := by
    obtain ⟨hp, hne⟩ := hknown.1 hp
    -- a name means the same wherever it stands, so it may stand in a binding that is not given up
    obtain ⟨owner', howner'⟩ : ∃ owner', owner' ≠ owner := exists_ne owner
    have hitem : Item b label owner' [] (.name name) p :=
      (h.known hp fun hopen => hopen.elim hclosed' hne).name_anywhere
    exact (hitem.without howner' hbroken).name_anywhere
  halts {name p} hp hclosed' := by
    obtain ⟨hp, hne⟩ := hknown.1 hp
    exact (h.halts hp fun hopen => hopen.elim hclosed' hne).of_closed hclosed hhalts
  opened {name p} hp hopen := by
    obtain ⟨hp, hne⟩ := hknown.1 hp
    obtain ⟨m, hmeans, hshows, path, s, rfl⟩ := h.opened hp (.inl hopen)
    refine ⟨_, hmeans, ?_, path, s, rfl⟩
    cases hshows with
    | container hq => exact .container (Labels.without_eq_some_iff.2 ⟨hq, hne⟩)

theorem Step.shrink (h : Step open' claims touched label label' e e') (hopen : ∀ o, open_ o → open' o) :
    Step open_ claims touched label label' e e' where
  size_le := h.size_le
  label_eq := h.label_eq
  containers := h.containers
  known := h.known
  learnt hnone hsome hname := h.learnt hnone hsome (hopen _ hname)
  labelled hle hq := (h.labelled hle hq).imp_right fun ⟨name, howner, hclosed, hnone⟩ =>
    ⟨name, howner, fun hname => hclosed (hopen _ hname), hnone⟩

theorem Step.know (h : Step open_ claims touched label label' e e') (hclosed : ¬ open_ (some name))
    (hunknown : e.known.get? name = none) (p : Point) :
    Step open_ claims touched label label' e { e' with known := e'.known.set name p } :=
  { h with
    known := fun {name' p'} hp => by
      have hname : name' ≠ name := by
        rintro rfl
        simp [hunknown] at hp
      simpa [Entries.get?_set_of_ne hname] using h.known hp
    learnt := fun {name'} hnone hsome => by
      by_cases hname : name' = name
      · exact hname ▸ hclosed
      · exact h.learnt hnone (by simpa [Entries.get?_set_of_ne hname] using hsome) }

/-- New places in the binding of a name that was not known are not in the way of others. -/
theorem Step.settle (h : Step open_ claims touched label label' e e')
    (hclaims : ∀ q, claims q → q.owner = some name) (hclosed : ¬ open_ (some name))
    (hunknown : e.known.get? name = none) :
    Step open_ (fun _ => False) touched label label' e e' where
  size_le := h.size_le
  label_eq := h.label_eq
  containers := h.containers
  known := h.known
  learnt := h.learnt
  labelled hle hq := by
    obtain hq | hq := h.labelled hle hq
    · exact .inr ⟨name, hclaims _ hq, hclosed, hunknown⟩
    · exact .inr hq

theorem Step.drop {e'' : Evaluator} (h : Step open_ (fun _ => False) touched label label' e e')
    (hfree : ∀ id q, label id = some q → q.owner ≠ owner)
    (hunknown : ∀ name, owner = some name → e.known.get? name = none) (hgraph : e''.graph = e'.graph)
    (hknown : ∀ {name p}, e''.known.get? name = some p ↔ e'.known.get? name = some p ∧ some name ≠ owner) :
    Step open_ (fun _ => False) touched label (label'.without owner) e e'' where
  size_le := by
    simp only [Evaluator.size, hgraph]
    exact h.size_le
  label_eq {id} hlt := by
    rw [Labels.without, h.label_eq hlt]
    cases hq : label id with
    | none => rfl
    | some q => simp [Option.filter, hfree id q hq]
  containers hlt hfixed := by
    rw [hgraph]
    exact h.containers hlt hfixed
  known {name p} hp := by
    refine hknown.2 ⟨h.known hp, ?_⟩
    rintro rfl
    simp [hunknown name rfl] at hp
  learnt {name} hnone hsome := by
    obtain ⟨p, hp⟩ := Option.isSome_iff_exists.1 hsome
    exact h.learnt hnone (by simp [(hknown.1 hp).1])
  labelled hle hq := h.labelled hle (Labels.without_eq_some_iff.1 hq).1

theorem Sound.free (h : Sound b label open_ loose e) (hclosed : ¬ open_ (some name))
    (hunknown : e.known.get? name = none) : ∀ id q, label id = some q → q.owner ≠ some name := by
  intro id q hq howner
  obtain hopen | ⟨name', howner', hsome⟩ := h.owned hq
  · exact hclosed (howner ▸ hopen)
  · obtain rfl := Option.some.inj (howner.symm.trans howner')
    simp [hunknown] at hsome

theorem Clear.closed (h : Clear b open_ e (.name name)) (hunknown : e.known.get? name = none) :
    ¬ open_ (some name) := fun hopen => by
  simpa [hunknown] using (h.opened name hopen .here).1

/-- When a binding turns out broken, its containers lose their places. -/
theorem Sound.give_up {label₁ : Labels} {e₁ : Evaluator} (h : Sound b label open_ loose e)
    (e₂ : Evaluator) (hclosed : ¬ open_ (some name)) (hunknown : e.known.get? name = none)
    (hstep : Step open_ (fun _ => False) (fun _ => False) label label₁ e e₁)
    (hleft : Sound b label₁ (Opened open_ (some name))
      (fun id => loose id ∨ OwnedBy (some name) label₁ id) e₁)
    (hbroken : Broken b (.name name)) (hhalts : Halts b open_ (.name name))
    (hbindings : e₂.bindings = e₁.bindings) (hgraph : e₂.graph = e₁.graph)
    (hknown : ∀ {name' p}, e₂.known.get? name' = some p ↔ e₁.known.get? name' = some p ∧ name' ≠ name) :
    Step open_ (fun _ => False) (fun _ => False) label (label₁.without (some name)) e e₂ ∧
      Sound b (label₁.without (some name)) open_ loose e₂ := by
  have hknown' {name' : String} {p : Point} : e₂.known.get? name' = some p ↔
      e₁.known.get? name' = some p ∧ some name' ≠ some name := by simpa using hknown
  constructor
  · exact hstep.drop (h.free hclosed hunknown) (fun _ heq => Option.some.inj heq ▸ hunknown) hgraph hknown'
  · exact hleft.drop hclosed (fun _ heq => Option.some.inj heq ▸ hbroken)
      (fun _ heq => Option.some.inj heq ▸ hhalts) hbindings hgraph hknown'

theorem lookupWithin_object {depth : Nat} {entries : List Property} (hunknown : e.known.get? name = none)
    (hbound : e.bindings.get? name = some (.object entries)) :
    exec (lookupWithin (depth + 1) name) e =
      match exec (fillObject (lookupWithin depth) (.container e.size) entries)
        { e.push (.object []) with known := e.known.set name (.container e.size) } with
      | (.ok _, e') => (.ok (.container e.size), e')
      | (.error error, e') => (.error error, { e' with known := e'.known.erase name }) := by
  simp only [lookupWithin, exec_bind, exec_get, hunknown, hbound, exec_insert, exec_know,
    exec_tryCatch, push, Evaluator.size]
  rcases exec (fillObject _ _ _) _ with ⟨_ | _, _⟩ <;> rfl

theorem lookupWithin_node {depth : Nat} (hunknown : e.known.get? name = none)
    (hbound : e.bindings.get? name = some node) (hnode : ∀ entries, node ≠ .object entries) :
    exec (lookupWithin (depth + 1) name) e =
      match exec (evalNode (lookupWithin depth) node) e with
      | (.ok p, e') => (.ok p, { e' with known := e'.known.set name p })
      | (.error error, e') => (.error error, e') := by
  have hexec : exec (lookupWithin (depth + 1) name) e =
      exec (evalNode (lookupWithin depth) node >>= fun p => know name p >>= fun _ => pure p) e := by
    simp only [lookupWithin, exec_bind, exec_get, hunknown, hbound]
  rw [hexec, exec_bind]
  rcases exec (evalNode (lookupWithin depth) node) e with ⟨_ | _, _⟩ <;> rfl

theorem get?_erase_eq_some_iff {known : Entries Point} {name' : String} :
    (known.erase name).get? name' = some p ↔ known.get? name' = some p ∧ name' ≠ name := by
  induction known with
  | nil => simp [Entries.erase, Entries.get?]
  | cons entry known ih =>
      obtain ⟨k, v⟩ := entry
      rw [Entries.erase] at ih ⊢
      by_cases hk : k = name <;> by_cases hk' : k = name'
      · subst hk hk'
        simpa using ih
      · subst hk
        simpa [Entries.get?, hk'] using ih
      · subst hk'
        simp [Entries.get?, hk]
      · simpa [Entries.get?, hk, hk'] using ih

def Evaluator.started (name : String) (e : Evaluator) : Evaluator :=
  { e.push (.object []) with known := e.known.set name (.container e.size) }

theorem Sound.started {entries : List Property} (h : Sound b label open_ loose e)
    (hclosed : ¬ open_ (some name)) (hunknown : e.known.get? name = none)
    (hbound : b.get? name = some (.object entries)) :
    Sound b (label.add e.size ⟨some name, [], .object entries⟩) (Opened open_ (some name))
      (fun id => loose id ∨ id = e.size) (e.started name) := by
  have henter : Sound b label (Opened open_ (some name)) loose e :=
    h.enter fun name' hname => Option.some.inj hname ▸ hunknown
  refine (henter.insert (.object []) (.inr rfl) (fun id hq => h.free hclosed hunknown id _ hq rfl) ?_).announce
    (.inr rfl) (.name hbound .object) (Labels.add_self _ _ _)
  intro name' x hname hreaches
  obtain rfl := Option.some.inj hname
  exact ⟨_, hbound, hreaches⟩

theorem Step.started {entries : List Property} (h : Sound b label open_ loose e)
    (hclosed : ¬ open_ (some name)) (hunknown : e.known.get? name = none) :
    Step open_ (·.owner = some name) (· = e.size) label (label.add e.size ⟨some name, [], .object entries⟩) e
      (e.started name) := by
  have hinsert : Step open_ (·.owner = some name) (· = e.size) label
      (label.add e.size ⟨some name, [], .object entries⟩) e (e.push (.object [])) :=
    .insert h (.object []) (by rfl)
  exact hinsert.know hclosed hunknown _

variable {depth : Nat}

theorem fill_started {entries : List Property} (hlook : Looks b depth (lookupWithin depth))
    (h : Sound b label open_ loose e) (hclear : Clear b open_ e (.name name))
    (hunknown : e.known.get? name = none) (hbound : b.get? name = some (.object entries)) :
    Comes b (Opened open_ (some name)) (fun id => loose id ∨ id = e.size) (Beyond (some name) [] 0)
      (· = e.size) (label.add e.size ⟨some name, [], .object entries⟩) (e.started name)
      (Halts b open_ (.name name)) (weight b e.known (.name name) < depth + 1)
      (fun label' e' _ => ∃ ps, EntryItems b label' (some name) [] 0 entries ps ∧
        e'.graph.containers[e.size]? = some (.object (filled [] entries ps)))
      (Broken b (.name name)) (OwnedBy (some name))
      (exec (fillObject (lookupWithin depth) (.container e.size) entries) (e.started name)) := by
  have hclosed := hclear.closed hunknown
  have hfill := fillObject_comes hlook (.inr rfl) entries _ _ _ [] 0 e.size []
    (h.started hclosed hunknown hbound) (.inr rfl) (by simp [Evaluator.started, Evaluator.size, push])
    (container_push_self _ _) (fun id q hq hbeyond => ?free)
    ⟨(hclear.sub fun _ => .name hbound).tame, fun x hopen hreaches => ?clear⟩
    (fun name' x hname hreaches => ?within)
  case free =>
    by_cases hid : id = e.size
    · subst hid
      rw [Labels.add_self] at hq
      obtain rfl := Option.some.inj hq
      exact not_beyond_self _ _ _ hbeyond
    · exact h.free hclosed hunknown id q ((Labels.add_of_ne hid).symm.trans hq) hbeyond.1
  case clear =>
    -- the object stands for the name already, and it is not broken if it depends on itself
    obtain hopen | hx := hopen
    · obtain ⟨hknown, hfine⟩ := hclear.opened x hopen (.name hbound hreaches)
      exact ⟨isSome_get?_set hknown _ _, hfine⟩
    · obtain rfl := Option.some.inj hx
      exact ⟨by simp [Evaluator.started], hclear.tame.object .here hbound ⟨_, hbound, hreaches⟩⟩
  case within =>
    obtain rfl := Option.some.inj hname
    exact ⟨_, hbound, hreaches⟩
  have hhalts : Halts b open_ (.name name) ↔ Halts b (Opened open_ (some name)) (.object entries) :=
    ⟨fun hname => (hname.name_bound hclosed hbound).mono fun _ => .inl,
      .of_opened (.inr ⟨_, .name hbound .object⟩) hbound⟩
  have hweight : weight b (e.started name).known (.object entries) < weight b e.known (.name name) :=
    weight_set_lt hbound hunknown _ _
  exact hfill.mono (fun _ => id) (fun _ _ => id) (fun _ _ => id) hhalts
    (fun hfits => Nat.lt_of_lt_of_le hweight (Nat.le_of_lt_succ hfits)) (.name hbound) fun _ _ _ _ => id

theorem lookup_object {entries : List Property} (hlook : Looks b depth (lookupWithin depth))
    (h : Sound b label open_ loose e) (hclear : Clear b open_ e (.name name))
    (hunknown : e.known.get? name = none) (hbound : b.get? name = some (.object entries)) :
    LookComes b open_ loose label e (depth + 1) name (exec (lookupWithin (depth + 1) name) e) := by
  have hclosed := hclear.closed hunknown
  have hfill := fill_started hlook h hclear hunknown hbound
  have hsettle {label₁ : Labels} {e₁ : Evaluator} (hstep : Step (Opened open_ (some name))
      (Beyond (some name) [] 0) (· = e.size) (label.add e.size ⟨some name, [], .object entries⟩) label₁
      (e.started name) e₁) : label₁ e.size = some ⟨some name, [], .object entries⟩ ∧
        Step open_ (fun _ => False) (fun _ => False) label label₁ e e₁ := by
    constructor
    · exact (hstep.label_eq (by simp [Evaluator.started, Evaluator.size, push])).trans (Labels.add_self _ _ _)
    · have hwhole := (Step.started h hclosed hunknown).trans
        ((hstep.shrink fun _ => .inl).mono fun _ hq => hq.1)
      exact (hwhole.settle (fun _ => id) hclosed hunknown).retouch fun _ => Nat.ne_of_lt
  rw [lookupWithin_object hunknown (by rw [h.bindings, hbound]), ← Evaluator.started]
  generalize exec (fillObject (lookupWithin depth) (.container e.size) entries) _ = out at hfill ⊢
  obtain ⟨error | ⟨⟩, e₁⟩ := out
  · refine ⟨fun h₁ h₂ => by simpa using hfill.ends h₁ h₂, fun hend => ?_, fun hend => ?_⟩
    · exact hfill.halted (by simpa using hend)
    obtain ⟨label₁, hstep₁, hbroken, hsound₁⟩ := hfill.comes (by simpa using hend)
    obtain ⟨hlabel, hstep⟩ := hsettle hstep₁
    have hleft : Sound b label₁ (Opened open_ (some name))
        (fun id => loose id ∨ OwnedBy (some name) label₁ id) e₁ := by
      refine hsound₁.loosen ?_
      rintro id ((hid | rfl) | hid)
      · exact .inl hid
      · exact .inr ⟨_, hlabel, rfl⟩
      · exact .inr hid
    obtain ⟨hstep', hsound'⟩ := h.give_up { e₁ with known := e₁.known.erase name } hclosed hunknown
      hstep hleft hbroken (hfill.halted (by simpa using hend)) rfl rfl get?_erase_eq_some_iff
    exact ⟨_, hstep', hbroken, hsound'.loosen fun _ => .inl⟩
  · refine ⟨fun _ _ => by simp, fun _ => hfill.halted (by simp), fun _ => ?_⟩
    obtain ⟨label₁, hstep₁, hsound₁, ps, hitems, hcontainer⟩ := hfill.comes (by simp)
    obtain ⟨hlabel, hstep⟩ := hsettle hstep₁
    have hfilled : Sound b label₁ (Opened open_ (some name)) loose e₁ :=
      hsound₁.close hlabel hcontainer ⟨ps, hitems, rfl⟩
    have hitem : Item b label₁ none [] (.name name) (.container e.size) :=
      ⟨fun hbroken => hitems.not_broken ((broken_name_iff hbound).1 hbroken), _, .name hbound .object,
        .container hlabel⟩
    exact ⟨label₁, hstep, hfilled.leave hclosed (hstep₁.known (by simp [Evaluator.started])) hitem
      (hfill.halted (by simp)), hitem⟩

theorem elements_opened {elements : List Node} (hlook : Looks b depth (lookupWithin depth))
    (h : Sound b label open_ loose e) (hclear : Clear b open_ e (.name name))
    (hunknown : e.known.get? name = none) (hbound : b.get? name = some (.array elements)) :
    Comes b (Opened open_ (some name)) loose (Under (some name) []) (fun _ => False) label e
      (Halts b open_ (.name name)) (weight b e.known (.name name) < depth + 1)
      (fun label' _ p => Item b label' (some name) [] (.array elements) p) (Broken b (.name name))
      (OwnedBy (some name)) (exec (evalNode (lookupWithin depth) (.array elements)) e) := by
  have hclosed := hclear.closed hunknown
  have hdetermined : Determined b name := .inr ⟨_, .name hbound .array⟩
  have henter : Sound b label (Opened open_ (some name)) loose e :=
    h.enter fun name' hname => Option.some.inj hname ▸ hunknown
  have hnode := evalNode_comes hlook (.inr rfl) (.array elements) label loose e [] henter
    (fun id q hq hunder => h.free hclosed hunknown id q hq hunder.1)
    ⟨(hclear.sub fun _ => .name hbound).tame, fun x hopen hreaches => ?clear⟩
    (fun name' x hname hreaches => Option.some.inj hname ▸ ⟨_, hbound, hreaches⟩)
  case clear =>
    -- nothing stands for an array before it is complete, so it must not come back to itself
    obtain hopen | hx := hopen
    · exact hclear.opened x hopen (.name hbound hreaches)
    · obtain rfl := Option.some.inj hx
      exact absurd ⟨_, hbound, hreaches⟩ (hclear.tame.array .here hbound)
  have hhalts : Halts b open_ (.name name) ↔ Halts b (Opened open_ (some name)) (.array elements) :=
    ⟨fun hname => (hname.name_bound hclosed hbound).mono fun _ => .inl, .of_opened hdetermined hbound⟩
  have hweight : weight b e.known (.array elements) < weight b e.known (.name name) :=
    Nat.add_lt_add_left (rank_lt hclear.tame hdetermined hbound (by simp)) _
  exact hnode.mono (fun _ => id) (fun _ _ => id) (fun _ _ => id) hhalts
    (fun hfits => Nat.lt_of_lt_of_le hweight (Nat.le_of_lt_succ hfits)) (.name hbound) fun _ _ _ _ => id

theorem lookup_array {elements : List Node} (hlook : Looks b depth (lookupWithin depth))
    (h : Sound b label open_ loose e) (hclear : Clear b open_ e (.name name))
    (hunknown : e.known.get? name = none) (hbound : b.get? name = some (.array elements)) :
    LookComes b open_ loose label e (depth + 1) name (exec (lookupWithin (depth + 1) name) e) := by
  have hclosed := hclear.closed hunknown
  have hvalue := elements_opened hlook h hclear hunknown hbound
  have hsettle {label₁ : Labels} {e₁ : Evaluator} (hstep : Step (Opened open_ (some name))
      (Under (some name) []) (fun _ => False) label label₁ e e₁) :
        e₁.known.get? name = none ∧ Step open_ (fun _ => False) (fun _ => False) label label₁ e e₁ := by
    refine ⟨?_, (hstep.shrink fun _ => .inl).settle (fun _ hq => hq.1) hclosed hunknown⟩
    by_contra hknown
    exact hstep.learnt hunknown (Option.isSome_iff_ne_none.2 hknown) (.inr rfl)
  rw [lookupWithin_node hunknown (by rw [h.bindings, hbound]) (by simp)]
  generalize exec (evalNode (lookupWithin depth) (.array elements)) e = out at hvalue ⊢
  obtain ⟨error | p, e₁⟩ := out
  · refine ⟨hvalue.ends, hvalue.halted, fun hend => ?_⟩
    obtain ⟨label₁, hstep₁, hbroken, hsound₁⟩ := hvalue.comes hend
    obtain ⟨hunknown₁, hstep⟩ := hsettle hstep₁
    have hkept {name' : String} {p : Point} :
        e₁.known.get? name' = some p ↔ e₁.known.get? name' = some p ∧ name' ≠ name := by
      refine ⟨fun hp => ⟨hp, ?_⟩, And.left⟩
      rintro rfl
      simp [hunknown₁] at hp
    obtain ⟨hstep', hsound'⟩ := h.give_up e₁ hclosed hunknown hstep hsound₁ hbroken (hvalue.halted hend)
      rfl rfl hkept
    exact ⟨_, hstep', hbroken, hsound'.loosen fun _ => .inl⟩
  · refine ⟨fun _ _ => nofun, fun _ => hvalue.halted nofun, fun _ => ?_⟩
    obtain ⟨label₁, hstep₁, hsound₁, hfine, m, hmeans, hshows⟩ := hvalue.comes nofun
    obtain ⟨-, hstep⟩ := hsettle hstep₁
    cases hmeans with
    | array =>
        cases hshows with
        | @container id _ hlabel =>
            have hmeans : Means b none [] (.name name) _ := .name hbound .array
            have hitem : Item b label₁ none [] (.name name) (.container id) :=
              ⟨fun hbroken => hfine ((broken_name_iff hbound).1 hbroken), _, hmeans, .container hlabel⟩
            refine ⟨label₁, hstep.know hclosed hunknown _, ?_, hitem⟩
            exact (hsound₁.announce (.inr rfl) hmeans hlabel).leave hclosed (by simp) hitem
              (hvalue.halted nofun)

theorem lookup_flat (hlook : Looks b depth (lookupWithin depth))
    (h : Sound b label open_ loose e) (hclear : Clear b open_ e (.name name))
    (hunknown : e.known.get? name = none) (hbound : b.get? name = some node) (hflat : (shape node).Flat) :
    LookComes b open_ loose label e (depth + 1) name (exec (lookupWithin (depth + 1) name) e) := by
  have hclosed := hclear.closed hunknown
  have hnode := evalNode_flat hlook h (hclear.sub fun _ => .name hbound) hflat (some name) []
  have hobject : ∀ entries, node ≠ .object entries := by
    rintro entries rfl
    exact hflat
  have hfits (hhalts : Halts b open_ (.name name)) (hfits : weight b e.known (.name name) < depth + 1) :
      weight b e.known (shape node) < depth :=
    Nat.lt_of_lt_of_le (Nat.add_lt_add_left (rank_lt hclear.tame (hhalts name .here) hbound hobject) _)
      (Nat.le_of_lt_succ hfits)
  rw [lookupWithin_node hunknown (by rw [h.bindings, hbound]) hobject]
  generalize exec (evalNode (lookupWithin depth) node) e = out at hnode ⊢
  have hends (h₁ : Halts b open_ (.name name)) (h₂ : weight b e.known (.name name) < depth + 1) :
      out.1 ≠ .error .endless := hnode.ends (h₁.name_bound hclosed hbound) (hfits h₁ h₂)
  obtain ⟨error | p, e₁⟩ := out
  · refine ⟨hends, fun hend => ?_, fun hend => ?_⟩ <;>
      obtain ⟨label₁, hstep, hbroken, hsound⟩ := hnode.comes hend
    · exact .of_bound (.inl (.name hbound hbroken)) hbound (hnode.halted hend)
    · exact ⟨label₁, hstep, .name hbound hbroken, hsound⟩
  · obtain ⟨label₁, hstep, hsound, hfine, m, hmeans, hshows⟩ := hnode.comes nofun
    have hmeans' : Means b none [] (.name name) m := .name hbound hmeans
    have hhalts : Halts b open_ (.name name) := .of_bound (.inr ⟨m, hmeans'⟩) hbound (hnode.halted nofun)
    have hitem : Item b label₁ none [] (.name name) p :=
      ⟨fun hbroken => hfine ((broken_name_iff hbound).1 hbroken), m, hmeans', hshows⟩
    refine ⟨fun _ _ => nofun, fun _ => hhalts, fun _ => ⟨label₁, hstep.know hclosed hunknown p, ?_, hitem⟩⟩
    exact hsound.know hclosed hitem hhalts

theorem lookup_known (h : Sound b label open_ loose e) (hclear : Clear b open_ e (.name name))
    (hp : e.known.get? name = some p) :
    Item b label none [] (.name name) p ∧ Halts b open_ (.name name) := by
  by_cases hopen : open_ (some name)
  · obtain ⟨m, hmeans, hshows, -⟩ := h.opened hp hopen
    exact ⟨⟨(hclear.opened name hopen .here).2, m, hmeans, hshows⟩, .of_open (.inr ⟨m, hmeans⟩) hopen⟩
  · exact ⟨h.known hp hopen, h.halts hp hopen⟩

/-- A lookup keeps to what the bindings mean. It fails just when the name is broken, and comes to an
end just when the name halts. -/
theorem lookupWithin_looks (depth : Nat) : Looks b depth (lookupWithin depth) := by
  -- induction on how deep lookups may go; what is open grows from one lookup to the next
  induction depth with
  | zero =>
      intro label open_ loose e name h hclear
      exact ⟨fun _ hfits => absurd hfits (Nat.not_lt_zero _), fun hend => absurd rfl hend,
        fun hend => absurd rfl hend⟩
  | succ depth ih =>
      intro label open_ loose e name h hclear
      cases hknown : e.known.get? name with
      | some p =>
          obtain ⟨hitem, hhalts⟩ := lookup_known h hclear hknown
          rw [lookupWithin_known hknown]
          exact ⟨fun _ _ => nofun, fun _ => hhalts, fun _ => ⟨label, .refl _ _ _ h.lt, h, hitem⟩⟩
      | none =>
        cases hbound : b.get? name with
        | none =>
            rw [lookupWithin_unbound hknown (by rw [h.bindings, hbound])]
            cases hglobal : global? name with
            | some s =>
                have hmeans : Means b none [] (.name name) (.scalar s) := .global hbound hglobal
                refine ⟨fun _ _ => nofun, fun _ => .of_unbound (.inr ⟨_, hmeans⟩) hbound, fun _ => ?_⟩
                exact ⟨label, .refl _ _ _ h.lt, h, not_broken_of_global hbound hglobal, _, hmeans, .scalar s⟩
            | none =>
                have hbroken : Broken b (.name name) := .unbound hbound hglobal
                refine ⟨fun _ _ => nofun, fun _ => .of_unbound (.inl hbroken) hbound, fun _ => ?_⟩
                exact ⟨label, .refl _ _ _ h.lt, hbroken, h.loosen fun _ => .inl⟩
        | some node =>
            obtain ⟨entries, rfl⟩ | ⟨elements, rfl⟩ | hflat := shape_cases node
            · exact lookup_object ih h hclear hknown hbound
            · exact lookup_array ih h hclear hknown hbound
            · exact lookup_flat ih h hclear hknown hbound hflat

end CssExtract.Eval
