import CssExtract.Proofs.Halting
import CssExtract.Proofs.Lookup

namespace CssExtract.Eval

open Evaluator Script

/-- The places of containers. Those without one are no longer in use. -/
abbrev Labels := Nat → Option Place

namespace Labels

def add (label : Labels) (id : Nat) (q : Place) : Labels := fun id' => if id' = id then some q else label id'

def without (label : Labels) (owner : Option String) : Labels := fun id =>
  (label id).filter fun q => q.owner ≠ owner

def Extends (label label' : Labels) : Prop := ∀ ⦃id q⦄, label id = some q → label' id = some q

variable {label label' : Labels} {id id' : Nat} {q q' : Place} {owner : Option String}

theorem add_self (label : Labels) (id : Nat) (q : Place) : label.add id q id = some q := if_pos rfl

theorem add_of_ne (h : id' ≠ id) : label.add id q id' = label id' := if_neg h

theorem without_eq_some_iff : label.without owner id = some q ↔ label id = some q ∧ q.owner ≠ owner := by
  simp [without, Option.filter_eq_some_iff]

end Labels

/-- The point is what is meant. -/
inductive Shows (label : Labels) : Point → Meaning → Prop
  | scalar (s : Scalar) : Shows label (.scalar s) (.scalar s)
  | container {id : Nat} {q : Place} (h : label id = some q) : Shows label (.container id) (.place q)

variable {b : Entries Node} {label label' : Labels} {s : Shape} {p : Point} {owner : Option String}
  {path : List Nat} {q : Place} {name : String} {node : Node} {e e' : Evaluator}

theorem Shows.mono {m : Meaning} (h : Shows label p m) (hext : label.Extends label') :
    Shows label' p m := by
  cases h with
  | scalar s => exact .scalar s
  | container h => exact .container (hext h)

/-- The point is the value of a part that can be evaluated. -/
def Item (b : Entries Node) (label : Labels) (owner : Option String) (path : List Nat) (s : Shape)
    (p : Point) : Prop :=
  ¬ Broken b s ∧ ∃ m, Means b owner path s m ∧ Shows label p m

def EntryItem (b : Entries Node) (label : Labels) (owner : Option String) (path : List Nat)
    (node : Node) (p : Point) : Prop :=
  (isCall node = true ∧ Broken b (shape node) ∧ p = .scalar .undefined) ∨
    Item b label owner path (shape node) p

def Items (b : Entries Node) (label : Labels) (owner : Option String) (path : List Nat) (k : Nat)
    (elements : List Node) (points : List Point) : Prop :=
  List.Forall₂ (fun element p => Item b label owner (path ++ [element.2]) (shape element.1) p)
    (elements.zipIdx k) points

def EntryItems (b : Entries Node) (label : Labels) (owner : Option String) (path : List Nat) (k : Nat)
    (entries : List Property) (points : List Point) : Prop :=
  List.Forall₂ (fun entry p => EntryItem b label owner (path ++ [entry.2]) entry.1.value p)
    (entries.zipIdx k) points

/-- An object after some more of its entries are set. -/
def filled (old : Entries Point) (entries : List Property) (points : List Point) : Entries Point :=
  old.setAll ((entries.map (·.key.name)).zip points)

def Content (b : Entries Node) (label : Labels) (q : Place) (c : Container) : Prop :=
  match q.shape with
  | .object entries => ∃ points, EntryItems b label q.owner q.path 0 entries points ∧
      c = .object (filled [] entries points)
  | .array elements => ∃ points, Items b label q.owner q.path 0 elements points ∧ c = .array points
  | _ => False

theorem exists_of_forall₂_zipIdx {α β : Type} {r : α × Nat → β → Prop} {k : Nat} {as : List α}
    {bs : List β} (h : List.Forall₂ r (as.zipIdx k) bs) {a : α} (ha : a ∈ as) : ∃ i b, r (a, i) b := by
  induction as generalizing k bs with
  | nil => simp at ha
  | cons a' as ih =>
      rw [List.zipIdx_cons] at h
      cases h with
      | cons hr h =>
          obtain rfl | ha := List.mem_cons.1 ha
          · exact ⟨_, _, hr⟩
          · exact ih h ha

theorem Items.not_broken {k : Nat} {elements : List Node} {points : List Point}
    (h : Items b label owner path k elements points) : ¬ Broken b (.array elements) := by
  intro hbroken
  cases hbroken with
  | element hmem hbroken =>
      obtain ⟨_, _, hfine, -⟩ := exists_of_forall₂_zipIdx h hmem
      exact hfine hbroken

theorem EntryItems.not_broken {k : Nat} {entries : List Property} {points : List Point}
    (h : EntryItems b label owner path k entries points) : ¬ Broken b (.object entries) := by
  intro hbroken
  cases hbroken with
  | entry hmem needed hbroken =>
      obtain ⟨_, _, ⟨hcall, -⟩ | ⟨hfine, -⟩⟩ := exists_of_forall₂_zipIdx h hmem
      · simp [needed] at hcall
      · exact hfine hbroken

theorem Item.mono (h : Item b label owner path s p) (hext : label.Extends label') :
    Item b label' owner path s p := by
  obtain ⟨hfine, m, hmeans, hshows⟩ := h
  exact ⟨hfine, m, hmeans, hshows.mono hext⟩

theorem EntryItem.mono (h : EntryItem b label owner path node p) (hext : label.Extends label') :
    EntryItem b label' owner path node p := h.imp_right (·.mono hext)

/-- What holds of the parts of a place carries over to what is in its container. -/
theorem Content.imp {c : Container} {b' : Entries Node} (h : Content b label q c)
    (hitem : ∀ {path s p}, (∀ x, Reaches b s x → Reaches b q.shape x) →
      Item b label q.owner path s p → Item b' label' q.owner path s p)
    (hentry : ∀ {path node p}, (∀ x, Reaches b (shape node) x → Reaches b q.shape x) →
      EntryItem b label q.owner path node p → EntryItem b' label' q.owner path node p) :
    Content b' label' q c := by
  obtain ⟨owner, path, s⟩ := q
  cases s with
  | object entries =>
      obtain ⟨points, hpoints, rfl⟩ := h
      have hreaches (entry : Property × Nat) (hmem : entry ∈ entries.zipIdx) (x : String)
          (hx : Reaches b (shape entry.1.value) x) : Reaches b (.object entries) x :=
        .entry (List.fst_mem_of_mem_zipIdx hmem) hx
      exact ⟨points, ((List.forall₂_and_left _ _).2 ⟨hreaches, hpoints⟩).imp fun _ _ h => hentry h.1 h.2, rfl⟩
  | array elements =>
      obtain ⟨points, hpoints, rfl⟩ := h
      have hreaches (element : Node × Nat) (hmem : element ∈ elements.zipIdx) (x : String)
          (hx : Reaches b (shape element.1) x) : Reaches b (.array elements) x :=
        .element (List.fst_mem_of_mem_zipIdx hmem) hx
      exact ⟨points, ((List.forall₂_and_left _ _).2 ⟨hreaches, hpoints⟩).imp fun _ _ h => hitem h.1 h.2, rfl⟩
  | scalar | name | error => exact h.elim

/-- Every container with a label stands for its place, and every name that is known for its meaning.
The bindings of `open_` are being evaluated; the containers of `loose` are not yet complete. -/
structure Sound (b : Entries Node) (label : Labels) (open_ : Option String → Prop) (loose : Nat → Prop)
    (e : Evaluator) : Prop where
  bindings : e.bindings = b
  lt : ∀ {id q}, label id = some q → id < e.size
  injective : ∀ {id id' q}, label id = some q → label id' = some q → id = id'
  owned : ∀ {id q}, label id = some q →
    open_ q.owner ∨ ∃ name, q.owner = some name ∧ (e.known.get? name).isSome
  within : ∀ {id q name x}, label id = some q → q.owner = some name → Reaches b q.shape x →
    Depends b name x
  content : ∀ {id q}, label id = some q → ¬ loose id →
    ∃ c, e.graph.containers[id]? = some c ∧ Content b label q c
  known : ∀ {name p}, e.known.get? name = some p → ¬ open_ (some name) →
    Item b label none [] (.name name) p
  halts : ∀ {name p}, e.known.get? name = some p → ¬ open_ (some name) → Halts b open_ (.name name)
  opened : ∀ {name p}, e.known.get? name = some p → open_ (some name) →
    ∃ m, Means b none [] (.name name) m ∧ Shows label p m ∧ ∃ path s, m = .place ⟨some name, path, s⟩

/-- What an evaluation leaves as it is, and what it may add. -/
structure Step (open_ : Option String → Prop) (claims : Place → Prop) (touched : Nat → Prop)
    (label label' : Labels) (e e' : Evaluator) : Prop where
  size_le : e.size ≤ e'.size
  label_eq : ∀ {id}, id < e.size → label' id = label id
  containers : ∀ {id}, id < e.size → ¬ touched id →
    e'.graph.containers[id]? = e.graph.containers[id]?
  known : ∀ {name p}, e.known.get? name = some p → e'.known.get? name = some p
  learnt : ∀ {name}, e.known.get? name = none → (e'.known.get? name).isSome → ¬ open_ (some name)
  labelled : ∀ {id q}, e.size ≤ id → label' id = some q →
    claims q ∨ ∃ name, q.owner = some name ∧ ¬ open_ (some name) ∧ e.known.get? name = none

variable {open_ : Option String → Prop} {loose touched : Nat → Prop} {claims claims' : Place → Prop}

theorem Step.refl (open_ : Option String → Prop) (claims : Place → Prop) (touched : Nat → Prop)
    (hlt : ∀ {id q}, label id = some q → id < e.size) : Step open_ claims touched label label e e where
  size_le := Nat.le_refl _
  label_eq _ := rfl
  containers _ _ := rfl
  known := id
  learnt hnone hsome := by simp [hnone] at hsome
  labelled hle hq := absurd (hlt hq) (Nat.not_lt.2 hle)

theorem Step.mono (h : Step open_ claims touched label label' e e') (hclaims : ∀ q, claims q → claims' q) :
    Step open_ claims' touched label label' e e' where
  size_le := h.size_le
  label_eq := h.label_eq
  containers := h.containers
  known := h.known
  learnt := h.learnt
  labelled hle hq := (h.labelled hle hq).imp_left (hclaims _)

theorem Step.retouch {touched' : Nat → Prop} (h : Step open_ claims touched label label' e e')
    (htouched : ∀ id, id < e.size → touched id → touched' id) :
    Step open_ claims touched' label label' e e' :=
  { h with containers := fun hlt hfixed => h.containers hlt fun hid => hfixed (htouched _ hlt hid) }

theorem Step.trans {label'' : Labels} {e'' : Evaluator} (h : Step open_ claims touched label label' e e')
    (h' : Step open_ claims touched label' label'' e' e'') :
    Step open_ claims touched label label'' e e'' where
  size_le := Nat.le_trans h.size_le h'.size_le
  label_eq hlt := (h'.label_eq (Nat.lt_of_lt_of_le hlt h.size_le)).trans (h.label_eq hlt)
  containers hlt hfixed :=
    (h'.containers (Nat.lt_of_lt_of_le hlt h.size_le) hfixed).trans (h.containers hlt hfixed)
  known hp := h'.known (h.known hp)
  learnt {name} hnone hsome := by
    cases hmid : e'.known.get? name with
    | none => exact h'.learnt hmid hsome
    | some p => exact h.learnt hnone (by simp [hmid])
  labelled {id q} hle hq := by
    rcases Nat.lt_or_ge id e'.size with hlt | hge
    · exact h.labelled hle ((h'.label_eq hlt).symm.trans hq)
    · refine (h'.labelled hge hq).imp_right ?_
      rintro ⟨name, howner, hopen, hnone⟩
      refine ⟨name, howner, hopen, ?_⟩
      cases hmid : e.known.get? name with
      | none => rfl
      | some p => simp [h.known hmid] at hnone

theorem Step.extends (h : Step open_ claims touched label label' e e')
    (hlt : ∀ {id q}, label id = some q → id < e.size) : label.Extends label' :=
  fun _ _ hq => (h.label_eq (hlt hq)).trans hq

theorem Sound.extends (h : Sound b label open_ loose e)
    (hstep : Step open_ claims touched label label' e e') : label.Extends label' :=
  hstep.extends h.lt

theorem Sound.loosen {loose' : Nat → Prop} (h : Sound b label open_ loose e)
    (hloose : ∀ i, loose i → loose' i) : Sound b label open_ loose' e :=
  { h with content := fun hq hfixed => h.content hq fun hid => hfixed (hloose _ hid) }

/-- A container is complete once it is what its place means. -/
theorem Sound.close {id : Nat} {c : Container} (h : Sound b label open_ (fun id' => loose id' ∨ id' = id) e)
    (hq : label id = some q) (hc : e.graph.containers[id]? = some c) (hcontent : Content b label q c) :
    Sound b label open_ loose e :=
  { h with
    content := fun {id' q'} hq' hfixed => by
      by_cases hid : id' = id
      · subst hid
        obtain rfl := Option.some.inj (hq.symm.trans hq')
        exact ⟨c, hc, hcontent⟩
      · exact h.content hq' fun hloose => hloose.elim hfixed hid }

theorem size_push (c : Container) (e : Evaluator) : (e.push c).size = e.size + 1 :=
  Array.size_push _

theorem container_push_self (c : Container) (e : Evaluator) :
    (e.push c).graph.containers[e.size]? = some c := Array.getElem?_push_size

theorem container_push_of_lt {id : Nat} (h : id < e.size) (c : Container) :
    (e.push c).graph.containers[id]? = e.graph.containers[id]? := by
  simp only [push, Array.getElem?_push]
  rw [if_neg (Nat.ne_of_lt h)]

theorem Sound.extends_add (h : Sound b label open_ loose e) (q : Place) :
    label.Extends (label.add e.size q) := fun _ _ hq =>
  (Labels.add_of_ne (Nat.ne_of_lt (h.lt hq))).trans hq

/-- A new container has a place of its own, and is not complete. -/
theorem Sound.insert (h : Sound b label open_ loose e) (c : Container) (hopen : open_ q.owner)
    (hfree : ∀ id, label id ≠ some q)
    (hwithin : ∀ name x, q.owner = some name → Reaches b q.shape x → Depends b name x) :
    Sound b (label.add e.size q) open_ (fun id => loose id ∨ id = e.size) (e.push c) := by
  have hext := h.extends_add q
  have cases {id : Nat} {q' : Place} (hq : label.add e.size q id = some q') :
      (id = e.size ∧ q' = q) ∨ label id = some q' := by
    by_cases hid : id = e.size
    · subst hid
      rw [Labels.add_self] at hq
      exact .inl ⟨rfl, (Option.some.inj hq).symm⟩
    · exact .inr ((Labels.add_of_ne hid).symm.trans hq)
  refine ⟨h.bindings, ?_, ?_, ?_, ?_, ?_, ?_, h.halts, ?_⟩
  · intro id q' hq
    rw [size_push]
    obtain ⟨rfl, -⟩ | hq := cases hq
    · exact Nat.lt_succ_self _
    · exact Nat.lt_succ_of_lt (h.lt hq)
  · intro id id' q' hq hq'
    obtain ⟨rfl, rfl⟩ | hq := cases hq <;> obtain ⟨rfl, hsame⟩ | hq' := cases hq'
    · rfl
    · exact absurd hq' (hfree id')
    · exact absurd (hsame ▸ hq) (hfree id)
    · exact h.injective hq hq'
  · intro id q' hq
    obtain ⟨-, rfl⟩ | hq := cases hq
    · exact .inl hopen
    · exact h.owned hq
  · intro id q' name x hq howner hreaches
    obtain ⟨-, rfl⟩ | hq := cases hq
    · exact hwithin name x howner hreaches
    · exact h.within hq howner hreaches
  · intro id q' hq hfixed
    obtain ⟨rfl, -⟩ | hq := cases hq
    · exact absurd (.inr rfl) hfixed
    · obtain ⟨c', hc', hcontent⟩ := h.content hq fun hid => hfixed (.inl hid)
      exact ⟨c', (container_push_of_lt (h.lt hq) c).trans hc',
        hcontent.imp (fun _ => (·.mono hext)) fun _ => (·.mono hext)⟩
  · intro name p hp hclosed
    exact (h.known hp hclosed).mono hext
  · intro name p hp hopen'
    obtain ⟨m, hmeans, hshows, hm⟩ := h.opened hp hopen'
    exact ⟨m, hmeans, hshows.mono hext, hm⟩

theorem Step.insert (h : Sound b label open_ loose e) (c : Container) (hclaims : claims q) :
    Step open_ claims touched label (label.add e.size q) e (e.push c) where
  size_le := by rw [size_push]; exact Nat.le_succ _
  label_eq hlt := Labels.add_of_ne (Nat.ne_of_lt hlt)
  containers hlt _ := container_push_of_lt hlt c
  known := id
  learnt hnone hsome := by simp [push, hnone] at hsome
  labelled {id q'} hle hq := by
    by_cases hid : id = e.size
    · subst hid
      rw [Labels.add_self] at hq
      exact .inl (Option.some.inj hq ▸ hclaims)
    · exact absurd (h.lt ((Labels.add_of_ne hid).symm.trans hq)) (Nat.not_lt.2 hle)

def Evaluator.withEntry (id : Nat) (key : String) (p : Point) (e : Evaluator) : Evaluator :=
  { e with graph := e.graph.setEntry id key p }

theorem size_withEntry (id : Nat) (key : String) (p : Point) (e : Evaluator) :
    (e.withEntry id key p).size = e.size := by
  simp only [withEntry, Evaluator.size, Graph.setEntry]
  split <;> simp

theorem container_withEntry_self {id : Nat} {old : Entries Point}
    (h : e.graph.containers[id]? = some (.object old)) (key : String) (p : Point) :
    (e.withEntry id key p).graph.containers[id]? = some (.object (old.set key p)) := by
  obtain ⟨hlt, -⟩ := Array.getElem?_eq_some_iff.1 h
  rw [withEntry, Graph.setEntry_eq h]
  simp [hlt]

theorem container_withEntry_of_ne {id id' : Nat} (h : id' ≠ id) (key : String) (p : Point) :
    (e.withEntry id key p).graph.containers[id']? = e.graph.containers[id']? := by
  simp only [withEntry, Graph.setEntry]
  split
  · simp only [Array.getElem?_setIfInBounds]
    rw [if_neg (Ne.symm h)]
  · rfl

theorem Sound.withEntry {id : Nat} (h : Sound b label open_ loose e) (hloose : loose id) (key : String)
    (p : Point) : Sound b label open_ loose (e.withEntry id key p) where
  bindings := h.bindings
  lt hq := by
    rw [size_withEntry]
    exact h.lt hq
  injective := h.injective
  owned := h.owned
  within := h.within
  content {id' q} hq hfixed := by
    have hne : id' ≠ id := fun heq => hfixed (heq ▸ hloose)
    rw [container_withEntry_of_ne hne]
    exact h.content hq hfixed
  known := h.known
  halts := h.halts
  opened := h.opened

theorem Step.withEntry {id : Nat} (h : Sound b label open_ loose e) (htouched : touched id) (key : String)
    (p : Point) : Step open_ claims touched label label e (e.withEntry id key p) where
  size_le := Nat.le_of_eq (size_withEntry id key p e).symm
  label_eq _ := rfl
  containers {id'} _ hfixed := by
    refine container_withEntry_of_ne (fun heq => ?_) key p
    subst heq
    exact hfixed htouched
  known := fun hp => hp
  learnt hnone hsome := by simp [Evaluator.withEntry, hnone] at hsome
  labelled hle hq := absurd (h.lt hq) (Nat.not_lt.2 hle)

/-- Names whose bindings are being evaluated are reached only as objects that are not broken. -/
structure Clear (b : Entries Node) (open_ : Option String → Prop) (e : Evaluator) (s : Shape) : Prop where
  tame : Tame b s
  opened : ∀ name, open_ (some name) → Reaches b s name →
    (e.known.get? name).isSome ∧ ¬ Broken b (.name name)

theorem Clear.sub {s' : Shape} (h : Clear b open_ e s) (hreaches : ∀ x, Reaches b s' x → Reaches b s x) :
    Clear b open_ e s' :=
  ⟨h.tame.mono hreaches, fun name hopen hname => h.opened name hopen (hreaches name hname)⟩

theorem Clear.advance (h : Clear b open_ e s) (hstep : Step open_ claims touched label label' e e') :
    Clear b open_ e' s := by
  refine ⟨h.tame, fun name hopen hname => ?_⟩
  obtain ⟨hknown, hfine⟩ := h.opened name hopen hname
  obtain ⟨p, hp⟩ := Option.isSome_iff_exists.1 hknown
  exact ⟨by simp [hstep.known hp], hfine⟩

/-- Places in the part of a binding at a path. -/
def Under (owner : Option String) (path : List Nat) (q : Place) : Prop :=
  q.owner = owner ∧ path <+: q.path

/-- Places in the parts of the part of a binding at a path, from a number on. -/
def Beyond (owner : Option String) (path : List Nat) (k : Nat) (q : Place) : Prop :=
  q.owner = owner ∧ ∃ j, k ≤ j ∧ path ++ [j] <+: q.path

theorem Beyond.under {k : Nat} (h : Beyond owner path k q) : Under owner path q := by
  obtain ⟨howner, j, -, hprefix⟩ := h
  exact ⟨howner, (List.prefix_append path [j]).trans hprefix⟩

theorem Beyond.mono {j k : Nat} (h : Beyond owner path k q) (hle : j ≤ k) : Beyond owner path j q := by
  obtain ⟨howner, i, hi, hprefix⟩ := h
  exact ⟨howner, i, Nat.le_trans hle hi, hprefix⟩

theorem Under.beyond {k : Nat} (h : Under owner (path ++ [k]) q) : Beyond owner path k q :=
  ⟨h.1, k, Nat.le_refl _, h.2⟩

theorem Under.not_beyond {k : Nat} (h : Under owner (path ++ [k]) q) : ¬ Beyond owner path (k + 1) q := by
  rintro ⟨-, j, hj, hprefix⟩
  have heq := List.prefix_of_prefix_length_le h.2 hprefix (by simp)
  obtain ⟨t, ht⟩ := heq
  rw [List.append_assoc, List.append_right_inj] at ht
  have : k = j := by simpa using congrArg List.head? ht
  omega

theorem not_beyond_self (owner : Option String) (path : List Nat) (s : Shape) :
    ¬ Beyond owner path 0 ⟨owner, path, s⟩ := by
  rintro ⟨-, j, -, hprefix⟩
  have hle : path.length + 1 ≤ path.length := by simpa using hprefix.length_le
  omega

def OwnedBy (owner : Option String) (label : Labels) (id : Nat) : Prop :=
  ∃ q, label id = some q ∧ q.owner = owner

/-- How an evaluation can come out. It comes to an end if it halts and what it may need fits, and it
halts if it comes to an end: well, or because something is broken. Then some containers may be left
incomplete. -/
structure Comes {α : Type} (b : Entries Node) (open_ : Option String → Prop) (loose : Nat → Prop)
    (claims : Place → Prop) (touched : Nat → Prop) (label : Labels) (e : Evaluator) (halts fits : Prop)
    (good : Labels → Evaluator → α → Prop) (bad : Prop) (left : Labels → Nat → Prop)
    (out : Except EvalError α × Evaluator) : Prop where
  ends : halts → fits → out.1 ≠ .error .endless
  halted : out.1 ≠ .error .endless → halts
  comes : out.1 ≠ .error .endless → ∃ label', Step open_ claims touched label label' e out.2 ∧
    match out.1 with
    | .ok a => Sound b label' open_ loose out.2 ∧ good label' out.2 a
    | .error _ => bad ∧ Sound b label' open_ (fun id => loose id ∨ left label' id) out.2

section

variable {α β : Type} {halts halts₁ fits fits₁ bad bad₁ : Prop} {good : Labels → Evaluator → α → Prop}
  {good' : Labels → Evaluator → β → Prop} {left : Labels → Nat → Prop}

theorem Comes.after {label₀ : Labels} {e₀ : Evaluator} {out : Except EvalError α × Evaluator}
    (hstep : Step open_ claims touched label label₀ e e₀)
    (h : Comes b open_ loose claims touched label₀ e₀ halts fits good bad left out) :
    Comes b open_ loose claims touched label e halts fits good bad left out := by
  refine ⟨h.ends, h.halted, fun hend => ?_⟩
  obtain ⟨label', hstep', hout⟩ := h.comes hend
  exact ⟨label', hstep.trans hstep', hout⟩

/-- What comes first has to come to an end, and what comes then, if the first comes out well. -/
theorem Comes.bind {x : Evaluation α} {f : α → Evaluation β} {claims₁ : Place → Prop}
    {touched₁ : Nat → Prop}
    (h : Comes b open_ loose claims₁ touched₁ label e halts₁ fits₁ good bad₁ left (exec x e))
    (hclaims : ∀ q, claims₁ q → claims q) (htouched : ∀ id, touched₁ id → touched id)
    (hhalts : halts → halts₁) (hfits : fits → fits₁) (hbad : bad₁ → bad) (hhalted : halts₁ → bad₁ → halts)
    (hf : ∀ a label₁ e₁, Step open_ claims₁ touched₁ label label₁ e e₁ → Sound b label₁ open_ loose e₁ →
      good label₁ e₁ a → halts₁ →
        Comes b open_ loose claims touched label₁ e₁ halts fits good' bad left (exec (f a) e₁)) :
    Comes b open_ loose claims touched label e halts fits good' bad left (exec (x >>= f) e) := by
  rw [exec_bind]
  generalize exec x e = out at h ⊢
  obtain ⟨error | a, e₁⟩ := out
  · have hends : Except.error (α := β) error ≠ .error .endless →
        Except.error (α := α) error ≠ .error .endless := by simp
    refine ⟨fun h₁ h₂ => by simpa using h.ends (hhalts h₁) (hfits h₂), fun hend => ?_, fun hend => ?_⟩
    · obtain ⟨-, -, hbad₁, -⟩ := h.comes (hends hend)
      exact hhalted (h.halted (hends hend)) hbad₁
    · obtain ⟨label₁, hstep, hbad₁, hsound⟩ := h.comes (hends hend)
      exact ⟨label₁, (hstep.mono hclaims).retouch fun id _ => htouched id, hbad hbad₁, hsound⟩
  · obtain ⟨label₁, hstep, hsound, hgood⟩ := h.comes nofun
    exact .after ((hstep.mono hclaims).retouch fun id _ => htouched id)
      (hf a label₁ e₁ hstep hsound hgood (h.halted nofun))

theorem Comes.mono {claims' : Place → Prop} {touched' : Nat → Prop} {left' : Labels → Nat → Prop}
    {out : Except EvalError α × Evaluator} {good' : Labels → Evaluator → α → Prop}
    (h : Comes b open_ loose claims touched label e halts₁ fits₁ good bad₁ left out)
    (hclaims : ∀ q, claims q → claims' q) (htouched : ∀ id, id < e.size → touched id → touched' id)
    (hleft : ∀ label' id, left label' id → left' label' id) (hhalts : halts ↔ halts₁)
    (hfits : fits → fits₁) (hbad : bad₁ → bad)
    (hgood : ∀ label' e' a, Step open_ claims touched label label' e e' → good label' e' a →
      good' label' e' a) :
    Comes b open_ loose claims' touched' label e halts fits good' bad left' out := by
  refine ⟨fun h₁ h₂ => h.ends (hhalts.1 h₁) (hfits h₂), fun hend => hhalts.2 (h.halted hend), fun hend => ?_⟩
  obtain ⟨label', hstep, hout⟩ := h.comes hend
  refine ⟨label', (hstep.mono hclaims).retouch htouched, ?_⟩
  split at hout
  · exact ⟨hout.1, hgood _ _ _ hstep hout.2⟩
  · exact ⟨hbad hout.1, hout.2.loosen fun id hid => hid.imp_right (hleft label' id)⟩

theorem Comes.map {x : Evaluation α} (g : α → β)
    (h : Comes b open_ loose claims touched label e halts fits good bad left (exec x e))
    (hgood : ∀ label' e' a, Step open_ claims touched label label' e e' → good label' e' a →
      good' label' e' (g a)) :
    Comes b open_ loose claims touched label e halts fits good' bad left
      (exec (x >>= fun a => pure (g a)) e) := by
  refine h.bind (fun _ => id) (fun _ => id) id id id (fun hhalts _ => hhalts) ?_
  intro a label₁ e₁ hstep hsound ha hhalts
  refine ⟨fun _ _ => nofun, fun _ => hhalts, fun _ => ⟨label₁, .refl _ _ _ hsound.lt, hsound, ?_⟩⟩
  exact hgood _ _ _ hstep ha

end

abbrev LookComes (b : Entries Node) (open_ : Option String → Prop) (loose : Nat → Prop) (label : Labels)
    (e : Evaluator) (budget : Nat) (name : String) (out : Except EvalError Point × Evaluator) : Prop :=
  Comes b open_ loose (fun _ => False) (fun _ => False) label e (Halts b open_ (.name name))
    (weight b e.known (.name name) < budget) (fun label' _ p => Item b label' none [] (.name name) p)
    (Broken b (.name name)) (fun _ _ => False) out

/-- What looking up names has to do. -/
def Looks (b : Entries Node) (budget : Nat) (look : String → Evaluation Point) : Prop :=
  ∀ (label : Labels) (open_ : Option String → Prop) (loose : Nat → Prop) (e : Evaluator) (name : String),
    Sound b label open_ loose e → Clear b open_ e (.name name) →
      LookComes b open_ loose label e budget name (exec (look name) e)

variable {look : String → Evaluation Point} {budget : Nat}

theorem Item.name_anywhere {owner' : Option String} {path' : List Nat}
    (h : Item b label owner path (.name name) p) : Item b label owner' path' (.name name) p := by
  obtain ⟨hfine, m, hmeans, hshows⟩ := h
  exact ⟨hfine, m, hmeans.name_anywhere, hshows⟩

theorem evalNode_flat (hlook : Looks b budget look) (h : Sound b label open_ loose e)
    (hclear : Clear b open_ e (shape node)) (hflat : (shape node).Flat) (owner : Option String)
    (path : List Nat) :
    Comes b open_ loose (fun _ => False) (fun _ => False) label e (Halts b open_ (shape node))
      (weight b e.known (shape node) < budget) (fun label' _ p => Item b label' owner path (shape node) p)
      (Broken b (shape node)) (fun _ _ => False) (exec (evalNode look node) e) := by
  rw [exec_evalNode]
  cases hs : shape node with
  | scalar s =>
      refine ⟨fun _ _ => nofun, fun _ => .scalar s, fun _ => ?_⟩
      exact ⟨label, .refl _ _ _ h.lt, h, not_broken_scalar s, _, .scalar, .scalar s⟩
  | error error =>
      refine ⟨fun _ _ heq => ?_, fun _ => .error error, fun _ => ?_⟩
      · exact shape_ne_endless node (hs.trans (congrArg _ (Except.error.inj heq)))
      · exact ⟨label, .refl _ _ _ h.lt, .error error, h.loosen fun _ => .inl⟩
  | name name =>
      rw [hs] at hclear
      obtain ⟨hends, hhalted, hcomes⟩ := hlook label open_ loose e name h hclear
      refine ⟨hends, hhalted, fun hend => ?_⟩
      obtain ⟨label', hstep, hout⟩ := hcomes hend
      refine ⟨label', hstep, ?_⟩
      simp only at hout ⊢
      split at hout
      · exact ⟨hout.1, hout.2.name_anywhere⟩
      · exact hout
  | object | array => simp [hs, Shape.Flat] at hflat

/-- What evaluating a node of a binding has to do. -/
def NodeComes (b : Entries Node) (open_ : Option String → Prop) (owner : Option String) (budget : Nat)
    (look : String → Evaluation Point) (node : Node) : Prop :=
  ∀ (label : Labels) (loose : Nat → Prop) (e : Evaluator) (path : List Nat),
    Sound b label open_ loose e → (∀ id q, label id = some q → ¬ Under owner path q) →
    Clear b open_ e (shape node) →
    (∀ name x, owner = some name → Reaches b (shape node) x → Depends b name x) →
    Comes b open_ loose (Under owner path) (fun _ => False) label e (Halts b open_ (shape node))
      (weight b e.known (shape node) < budget) (fun label' _ p => Item b label' owner path (shape node) p)
      (Broken b (shape node)) (OwnedBy owner) (exec (evalNode look node) e)

def AllComes (b : Entries Node) (open_ : Option String → Prop) (owner : Option String) (budget : Nat)
    (look : String → Evaluation Point) (nodes : List Node) : Prop :=
  ∀ (label : Labels) (loose : Nat → Prop) (e : Evaluator) (path : List Nat) (k : Nat),
    Sound b label open_ loose e → (∀ id q, label id = some q → ¬ Beyond owner path k q) →
    Clear b open_ e (.array nodes) →
    (∀ name x, owner = some name → Reaches b (.array nodes) x → Depends b name x) →
    Comes b open_ loose (Beyond owner path k) (fun _ => False) label e (Halts b open_ (.array nodes))
      (weight b e.known (.array nodes) < budget) (fun label' _ ps => Items b label' owner path k nodes ps)
      (Broken b (.array nodes)) (OwnedBy owner) (exec (evalAll look nodes) e)

def FillComes (b : Entries Node) (open_ : Option String → Prop) (owner : Option String) (budget : Nat)
    (look : String → Evaluation Point) (entries : List Property) : Prop :=
  ∀ (label : Labels) (loose : Nat → Prop) (e : Evaluator) (path : List Nat) (k id : Nat)
    (old : Entries Point), Sound b label open_ loose e → loose id → id < e.size →
    e.graph.containers[id]? = some (.object old) →
    (∀ id q, label id = some q → ¬ Beyond owner path k q) →
    Clear b open_ e (.object entries) →
    (∀ name x, owner = some name → Reaches b (.object entries) x → Depends b name x) →
    Comes b open_ loose (Beyond owner path k) (· = id) label e (Halts b open_ (.object entries))
      (weight b e.known (.object entries) < budget)
      (fun label' e' _ => ∃ ps, EntryItems b label' owner path k entries ps ∧
        e'.graph.containers[id]? = some (.object (filled old entries ps)))
      (Broken b (.object entries)) (OwnedBy owner) (exec (fillObject look (.container id) entries) e)

/-- After the part at a number, the places from the next number on are still free. -/
theorem Step.free {k : Nat} (hopen : open_ owner)
    (hstep : Step open_ (Under owner (path ++ [k])) touched label label' e e')
    (hfree : ∀ id q, label id = some q → ¬ Beyond owner path k q) :
    ∀ id q, label' id = some q → ¬ Beyond owner path (k + 1) q := by
  intro id q hq hbeyond
  rcases Nat.lt_or_ge id e.size with hlt | hge
  · exact hfree id q ((hstep.label_eq hlt).symm.trans hq) (hbeyond.mono (Nat.le_succ k))
  · rcases hstep.labelled hge hq with hunder | ⟨name, howner, hclosed, -⟩
    · exact hunder.not_beyond hbeyond
    · exact hclosed (by rw [← howner, hbeyond.1]; exact hopen)

theorem NodeComes.flat (hlook : Looks b budget look) (hflat : (shape node).Flat) :
    NodeComes b open_ owner budget look node := by
  intro label loose e path h _ hclear _
  exact (evalNode_flat hlook h hclear hflat owner path).mono (fun _ => False.elim) (fun _ _ => id)
    (fun _ _ => False.elim) .rfl id id fun _ _ _ _ => id

theorem AllComes.nil : AllComes b open_ owner budget look [] := by
  intro label loose e path k h _ _ _
  exact ⟨fun _ _ => nofun, fun _ => .array_nil, fun _ => ⟨label, .refl _ _ _ h.lt, h, .nil⟩⟩

theorem AllComes.cons {nodes : List Node} (hopen : open_ owner)
    (hnode : NodeComes b open_ owner budget look node) (hnodes : AllComes b open_ owner budget look nodes) :
    AllComes b open_ owner budget look (node :: nodes) := by
  intro label loose e path k h hfree hclear hwithin
  have hhead (x : String) : Reaches b (shape node) x → Reaches b (.array (node :: nodes)) x :=
    .element (.head _)
  have hfirst := hnode label loose e (path ++ [k]) h (fun id q hq hunder => hfree id q hq hunder.beyond)
    (hclear.sub hhead)
    (fun name x howner hx => hwithin name x howner (hhead x hx))
  have hfits : weight b e.known (shape node) ≤ weight b e.known (.array (node :: nodes)) :=
    weight_mono id fun _ => .element (.head _)
  refine hfirst.bind (fun _ => Under.beyond) (fun _ => id) (fun hhalts => (halts_array_cons.1 hhalts).1)
    hfits.trans_lt (.element (.head _))
    (fun hhalts hbroken => halts_array_cons.2 ⟨hhalts, (absurd hbroken ·)⟩) ?_
  intro p label₁ e₁ hstep hsound hitem hhalts
  have hrest := hnodes label₁ loose e₁ path (k + 1) hsound (hstep.free hopen hfree)
    ((hclear.sub fun _ hx => hx.array_tail node).advance hstep)
    (fun name x howner hx => hwithin name x howner (hx.array_tail node))
  have hfits' : weight b e₁.known (.array nodes) ≤ weight b e.known (.array (node :: nodes)) :=
    weight_mono hstep.known fun _ hx => hx.array_tail node
  refine .map (p :: ·) (.mono hrest (fun _ hq => hq.mono (Nat.le_succ k)) (fun _ _ => id) (fun _ _ => id)
    ⟨fun h => (halts_array_cons.1 h).2 hitem.1, fun h => halts_array_cons.2 ⟨hhalts, fun _ => h⟩⟩
    hfits'.trans_lt (·.array_tail node) fun _ _ _ _ => id) ?_
  intro label₂ e₂ ps hstep₂ hitems
  rw [Items, List.zipIdx_cons]
  exact .cons (hitem.mono (hsound.extends hstep₂)) hitems

theorem Step.free_self (hopen : open_ owner)
    (hstep : Step open_ (Beyond owner path 0) touched label label' e e')
    (hfree : ∀ id q, label id = some q → ¬ Under owner path q) (s : Shape) :
    ∀ id, label' id ≠ some ⟨owner, path, s⟩ := by
  intro id hq
  rcases Nat.lt_or_ge id e.size with hlt | hge
  · exact hfree id _ ((hstep.label_eq hlt).symm.trans hq) ⟨rfl, List.prefix_refl path⟩
  · rcases hstep.labelled hge hq with hbeyond | ⟨name, howner, hclosed, -⟩
    · exact not_beyond_self owner path s hbeyond
    · exact hclosed (by rw [← howner]; exact hopen)

theorem NodeComes.array {elements : List Node} (hopen : open_ owner)
    (helements : AllComes b open_ owner budget look elements) :
    NodeComes b open_ owner budget look (.array elements) := by
  intro label loose e path h hfree hclear hwithin
  have hall := helements label loose e path 0 h (fun id q hq hbeyond => hfree id q hq hbeyond.under)
    hclear hwithin
  refine hall.bind (fun _ => Beyond.under) (fun _ => id) id id id (fun hhalts _ => hhalts) ?_
  intro ps label₁ e₁ hstep₁ hsound₁ hitems hhalts
  have hinsert := hsound₁.insert (q := ⟨owner, path, .array elements⟩) (.array ps) hopen
    (hstep₁.free_self hopen hfree _) hwithin
  have hitems' : Items b (label₁.add e₁.size ⟨owner, path, .array elements⟩) owner path 0 elements ps :=
    hitems.imp fun _ _ hitem => hitem.mono (hsound₁.extends_add _)
  have hself : Under owner path ⟨owner, path, .array elements⟩ := ⟨rfl, List.prefix_refl path⟩
  refine ⟨fun _ _ => nofun, fun _ => hhalts, fun _ => ⟨_, .insert hsound₁ (.array ps) hself, ?_, ?_⟩⟩
  · exact hinsert.close (Labels.add_self _ _ _) (container_push_self _ _) ⟨ps, hitems', rfl⟩
  · exact ⟨hitems.not_broken, _, .array, .container (Labels.add_self _ _ _)⟩

/-- While an object is filled, it is a container that is not complete. -/
theorem NodeComes.object {entries : List Property} (hopen : open_ owner)
    (hentries : FillComes b open_ owner budget look entries) :
    NodeComes b open_ owner budget look (.object entries) := by
  intro label loose e path h hfree hclear hwithin
  have hself : Under owner path ⟨owner, path, .object entries⟩ := ⟨rfl, List.prefix_refl path⟩
  have hstep₀ : Step open_ (Under owner path) (· = e.size) label _ e _ := .insert h (.object []) hself
  have hinsert := h.insert (.object []) hopen (fun id hq => hfree id _ hq hself) hwithin
  have hfill := hentries _ _ _ path 0 e.size [] hinsert (.inr rfl) (by simp [size_push])
    (container_push_self _ _) (fun id q hq hbeyond => ?free) (hclear.advance hstep₀) hwithin
  case free =>
    by_cases hid : id = e.size
    · subst hid
      rw [Labels.add_self] at hq
      obtain rfl := Option.some.inj hq
      exact not_beyond_self owner path _ hbeyond
    · exact hfree id q ((Labels.add_of_ne hid).symm.trans hq) hbeyond.under
  have hexec : exec (evalNode look (.object entries)) e =
      exec (fillObject look (.container e.size) entries >>= fun _ => pure (.container e.size))
        (e.push (.object [])) := rfl
  rw [hexec]
  have hvalue : Comes b open_ (fun id => loose id ∨ id = e.size) (Beyond owner path 0) (· = e.size) _ _ _ _
      (fun label' e' (p : Point) => p = .container e.size ∧ ∃ ps, EntryItems b label' owner path 0 entries ps ∧
        e'.graph.containers[e.size]? = some (.object (filled [] entries ps))) _ _ _ :=
    hfill.map (fun _ => .container e.size) fun _ _ _ _ hgood => ⟨rfl, hgood⟩
  refine ⟨hvalue.ends, hvalue.halted, fun hend => ?_⟩
  obtain ⟨label₁, hstep₁, hout⟩ := hvalue.comes hend
  have hlabel : label₁ e.size = some ⟨owner, path, .object entries⟩ :=
    (hstep₁.label_eq (by simp [size_push])).trans (Labels.add_self _ _ _)
  refine ⟨label₁, (hstep₀.trans (hstep₁.mono fun _ => Beyond.under)).retouch fun _ => Nat.ne_of_lt, ?_⟩
  split at hout
  · obtain ⟨hsound₁, rfl, ps, hitems, hcontainer⟩ := hout
    refine ⟨?_, hitems.not_broken, _, .object, .container hlabel⟩
    exact hsound₁.close hlabel hcontainer ⟨ps, hitems, rfl⟩
  · obtain ⟨hbroken, hsound₁⟩ := hout
    refine ⟨hbroken, hsound₁.loosen ?_⟩
    rintro id ((hid | rfl) | hid)
    · exact .inl hid
    · exact .inr ⟨_, hlabel, rfl⟩
    · exact .inr hid

theorem FillComes.nil : FillComes b open_ owner budget look [] := by
  intro label loose e path k id old h _ _ hcontainer _ _ _
  refine ⟨fun _ _ => nofun, fun _ => .object_nil, fun _ => ?_⟩
  exact ⟨label, .refl _ _ _ h.lt, h, [], .nil, hcontainer⟩

def entryValue (look : String → Evaluation Point) (value : Node) : Evaluation Point :=
  tryCatch (evalNode look value) fun error =>
    if isCall value && error ≠ .endless then return .scalar .undefined else throw error

theorem exec_entryValue (e : Evaluator) : exec (entryValue look node) e =
    match exec (evalNode look node) e with
    | (.ok p, e') => (.ok p, e')
    | (.error error, e') =>
      if isCall node = true ∧ error ≠ .endless then (.ok (.scalar .undefined), e') else (.error error, e') := by
  simp only [entryValue, exec_tryCatch]
  rcases exec (evalNode look node) e with ⟨error | p, e'⟩
  · by_cases h : isCall node = true ∧ error ≠ .endless <;> simp [h]
  · rfl

def EntryComes (b : Entries Node) (open_ : Option String → Prop) (owner : Option String) (budget : Nat)
    (look : String → Evaluation Point) (node : Node) : Prop :=
  ∀ (label : Labels) (loose : Nat → Prop) (e : Evaluator) (path : List Nat),
    Sound b label open_ loose e → (∀ id q, label id = some q → ¬ Under owner path q) →
    Clear b open_ e (shape node) →
    (∀ name x, owner = some name → Reaches b (shape node) x → Depends b name x) →
    Comes b open_ loose (Under owner path) (fun _ => False) label e (Halts b open_ (shape node))
      (weight b e.known (shape node) < budget) (fun label' _ p => EntryItem b label' owner path node p)
      (isCall node = false ∧ Broken b (shape node)) (OwnedBy owner) (exec (entryValue look node) e)

theorem EntryComes.of_node (hlook : Looks b budget look) (hnode : NodeComes b open_ owner budget look node) :
    EntryComes b open_ owner budget look node := by
  intro label loose e path h hfree hclear hwithin
  rw [exec_entryValue]
  cases hcall : isCall node with
  | false =>
      have hvalue := hnode label loose e path h hfree hclear hwithin
      generalize exec (evalNode look node) e = out at hvalue ⊢
      obtain ⟨error | p, e₁⟩ := out
      · have herror : (if false = true ∧ error ≠ .endless then (.ok (.scalar .undefined), e₁)
            else (.error error, e₁) : Except EvalError Point × Evaluator) = (.error error, e₁) := by simp
        simp only [herror]
        refine ⟨hvalue.ends, hvalue.halted, fun hend => ?_⟩
        obtain ⟨label₁, hstep, hbroken, hsound⟩ := hvalue.comes hend
        exact ⟨label₁, hstep, ⟨trivial, hbroken⟩, hsound⟩
      · refine ⟨hvalue.ends, hvalue.halted, fun hend => ?_⟩
        obtain ⟨label₁, hstep, hsound, hitem⟩ := hvalue.comes hend
        exact ⟨label₁, hstep, hsound, .inr hitem⟩
  | true =>
      have hvalue := evalNode_flat hlook h hclear (Shape.flat_of_isCall hcall) owner path
      generalize exec (evalNode look node) e = out at hvalue ⊢
      obtain ⟨error | p, e₁⟩ := out
      · by_cases herror : error = .endless
        · subst herror
          refine ⟨fun hhalts hfits => absurd rfl (hvalue.ends hhalts hfits), ?_, ?_⟩ <;> simp
        · have hend : Except.error (α := Point) error ≠ .error .endless := by simpa using herror
          obtain ⟨label₁, hstep, hbroken, hsound⟩ := hvalue.comes hend
          simp only [ne_eq, herror, not_false_eq_true, and_self, if_true]
          refine ⟨fun _ _ => nofun, fun _ => hvalue.halted hend, fun _ => ⟨label₁, ?_⟩⟩
          exact ⟨hstep.mono fun _ => False.elim, hsound.loosen fun _ hid => hid.resolve_right id,
            .inl ⟨hcall, hbroken, rfl⟩⟩
      · refine ⟨hvalue.ends, hvalue.halted, fun hend => ?_⟩
        obtain ⟨label₁, hstep, hsound, hitem⟩ := hvalue.comes hend
        exact ⟨label₁, hstep.mono fun _ => False.elim, hsound, .inr hitem⟩

theorem fillObject_cons {key : Key} {rest : List Property} {id : Nat} :
    fillObject look (.container id) (.mk key node :: rest) = (entryValue look node >>= fun p =>
      setEntry (.container id) key.name p >>= fun _ => fillObject look (.container id) rest) := rfl

theorem FillComes.cons {key : Key} {rest : List Property} (hopen : open_ owner)
    (hentry : EntryComes b open_ owner budget look node) (hrest : FillComes b open_ owner budget look rest) :
    FillComes b open_ owner budget look (.mk key node :: rest) := by
  intro label loose e path k id old h hloose hlt hcontainer hfree hclear hwithin
  let entry : Property := .mk key node
  have hmem : entry ∈ entry :: rest := .head _
  have hhead (x : String) : Reaches b (shape node) x → Reaches b (.object (entry :: rest)) x := .entry hmem
  have hfirst := hentry label loose e (path ++ [k]) h (fun id q hq hunder => hfree id q hq hunder.beyond)
    (hclear.sub hhead)
    (fun name x howner hx => hwithin name x howner (hhead x hx))
  have hfits : weight b e.known (shape node) ≤ weight b e.known (.object (entry :: rest)) :=
    weight_mono (fun hp => hp) fun _ => .entry hmem
  rw [fillObject_cons]
  refine hfirst.bind (fun _ => Under.beyond) (fun _ => False.elim)
    (fun hhalts => (halts_object_cons.1 hhalts).1) hfits.trans_lt (fun hbroken => .entry hmem hbroken.1 hbroken.2) ?_ ?_
  · rintro hhalts ⟨hneeded, hbroken⟩
    refine halts_object_cons.2 ⟨hhalts, fun hfine => ?_⟩
    obtain hcall | hfine := hfine
    · simp [Property.value, hneeded] at hcall
    · exact absurd hbroken hfine
  intro p label₁ e₁ hstep₁ hsound₁ hitem hhalts
  have hcontainer₁ := (hstep₁.containers hlt nofun).trans hcontainer
  have hsound₂ := hsound₁.withEntry hloose key.name p
  have hset : Step open_ (Beyond owner path k) (· = id) label₁ label₁ e₁ (e₁.withEntry id key.name p) :=
    .withEntry hsound₁ (by rfl) key.name p
  have hfill := hrest label₁ loose _ path (k + 1) id _ hsound₂ hloose
    (Nat.lt_of_lt_of_le hlt (Nat.le_trans hstep₁.size_le hset.size_le))
    (container_withEntry_self hcontainer₁ key.name p) (hstep₁.free hopen hfree)
    (((hclear.sub fun _ hx => hx.object_tail entry).advance hstep₁).advance hset)
    (fun name x howner hx => hwithin name x howner (hx.object_tail entry))
  have hfits' : weight b (e₁.withEntry id key.name p).known (.object rest) ≤
      weight b e.known (.object (entry :: rest)) :=
    weight_mono hstep₁.known fun _ hx => hx.object_tail entry
  have hfine : isCall node = true ∨ ¬ Broken b (shape node) := hitem.imp And.left And.left
  refine .after hset (hfill.mono (fun _ hq => hq.mono (Nat.le_succ k)) (fun _ _ hid => hid) (fun _ _ hid => hid)
    ⟨fun h => (halts_object_cons.1 h).2 hfine, fun h => halts_object_cons.2 ⟨hhalts, fun _ => h⟩⟩
    hfits'.trans_lt (·.object_tail entry) ?_)
  rintro label₂ e₂ - hstep₂ ⟨ps, hitems, hcontainer₂⟩
  refine ⟨p :: ps, ?_, hcontainer₂⟩
  rw [EntryItems, List.zipIdx_cons]
  exact .cons (hitem.mono (hsound₂.extends hstep₂)) hitems

mutual

theorem evalNode_comes (hlook : Looks b budget look) (hopen : open_ owner) (node : Node) :
    NodeComes b open_ owner budget look node := by
  match node with
  | .array elements => exact .array hopen (evalAll_comes hlook hopen elements)
  | .object entries => exact .object hopen (fillObject_comes hlook hopen entries)
  | .raw _ | .call .. | .string .. | .number _ | .bool _ | .null | .identifier _ | .member .. | .block _
  | .arrow .. | .property _ | .text _ | .template .. =>
      exact .flat hlook (((shape_cases _).resolve_left (by simp)).resolve_left (by simp))

theorem evalAll_comes (hlook : Looks b budget look) (hopen : open_ owner) (nodes : List Node) :
    AllComes b open_ owner budget look nodes := by
  match nodes with
  | [] => exact .nil
  | node :: nodes => exact .cons hopen (evalNode_comes hlook hopen node) (evalAll_comes hlook hopen nodes)

theorem fillObject_comes (hlook : Looks b budget look) (hopen : open_ owner) (entries : List Property) :
    FillComes b open_ owner budget look entries := by
  match entries with
  | [] => exact .nil
  | .mk _ value :: rest =>
      exact .cons hopen (.of_node hlook (evalNode_comes hlook hopen value))
        (fillObject_comes hlook hopen rest)

end

end CssExtract.Eval
