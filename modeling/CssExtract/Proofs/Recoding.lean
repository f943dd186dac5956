import CssExtract.Proofs.HeadText

namespace CssExtract.Script

open Text

variable {tag a b g r s s₂ t : List Char} {c : Char} {i k m n n' : Nat} {e e' j : Bool}
  {P : List Char → Prop} {previous : Option Char}

def joined (previous : Option Char) : Bool := previous.any fun c => isNamePart c || c = '.'

def hasTag (tag s : List Char) : Bool :=
  tag.isPrefixOf s && !((s.drop tag.length).head?.any isNamePart)

theorem startsTag_eq (tag : List Char) (previous : Option Char) (s : List Char) :
    startsTag tag previous s = (!joined previous && hasTag tag s) := by
  simp only [startsTag, joined, hasTag]
  cases tag.isPrefixOf s <;> cases (previous.any fun c => isNamePart c || c = '.') <;> simp

theorem hasTag_eq_true_iff :
    hasTag tag s = true ↔ ∃ t, s = tag ++ t ∧ t.head?.any isNamePart = false := by
  simp only [hasTag, Bool.and_eq_true, Bool.not_eq_true', List.isPrefixOf_iff_prefix]
  constructor
  · rintro ⟨⟨t, rfl⟩, hnext⟩
    exact ⟨t, rfl, by simpa using hnext⟩
  · rintro ⟨t, rfl, hnext⟩
    exact ⟨⟨t, rfl⟩, by simpa using hnext⟩

theorem joined_of_isAsciiNamePart (h : isAsciiNamePart c = true) : joined (some c) = true := by
  simp [joined, isNamePart_of_isAsciiNamePart h]

theorem ends_of_not_isNamePart {next : Option Char} (h : next.any isNamePart = false) : Ends next := by
  cases next with
  | none => rfl
  | some c =>
      simp only [Option.any_some, Ends] at h ⊢
      exact Bool.eq_false_iff.2 fun hc => by simp [isNamePart_of_isAsciiNamePart hc] at h

theorem IsName.unique (ha : IsName a) (hb : IsName b) (hs : Ends s.head?) (ht : Ends t.head?)
    (h : a ++ s = b ++ t) : a = b ∧ s = t := by
  have hlength := nameLength?_append ha hs
  rw [h, nameLength?_append hb ht] at hlength
  exact List.append_inj h (Option.some.inj hlength).symm

/-- The operations of a head that goes on in the text so are no call site: no template follows
them, and they are not two or more of which the last is a call. -/
def Siteless (n : Nat) (e : Bool) (s : List Char) : Prop :=
  ∃ a r n' e', s = a ++ r ∧ Ops r.head? n e a n' e' ∧ Stops r ∧ ¬ (2 ≤ n' ∧ e' = true)

theorem Ops.shift {next : Option Char} (h : Ops next n e a n' e') (hle : m ≤ n) :
    Ops next m e a (n' - (n - m)) e' := by
  induction h generalizing m with
  | nil n e => rw [show n - (n - m) = m by omega]; exact .nil m e
  | @member n n' e e' g g' name a hg hg' hname hend _ ih =>
      have := ih (Nat.succ_le_succ hle)
      rw [Nat.add_sub_add_right] at this
      exact .member hg hg' hname hend this
  | @call n n' e e' g b a hg hb _ ih =>
      have := ih (Nat.succ_le_succ hle)
      rw [Nat.add_sub_add_right] at this
      exact .call hg hb this

theorem Siteless.mono (h : Siteless n e s) (hle : m ≤ n) : Siteless m e s := by
  obtain ⟨a, r, n', e', rfl, hops, hstops, hno⟩ := h
  exact ⟨a, r, _, e', rfl, hops.shift hle, hstops, fun ⟨htwo, hcall⟩ => hno ⟨by omega, hcall⟩⟩

theorem Siteless.readHead (h : Siteless n e s) (i : Nat) :
    ∃ n' e' stop, readHead i ⟨n, e, i⟩ 0 s = .ok (⟨n', e', stop⟩, none) ∧
      ¬ (2 ≤ n' ∧ e' = true) := by
  obtain ⟨a, r, n', e', rfl, hops, hstops, hno⟩ := h
  exact ⟨n', e', _, by rw [hops.readHead rfl, hstops], hno⟩

theorem stops_of_readHead {found : HeadExtent} (h : readHead i ⟨n, e, k⟩ 0 s = .ok (found, none))
    (hops : found.ops = n) : Stops s := by
  obtain ⟨a, r, backtick, rfl, hread, -, htick, hfollows⟩ := endsHead_of_readHead h
  obtain rfl : a = [] := hread.eq_nil_iff.2 hops
  rcases hfollows with ⟨-, hstops⟩ | ⟨g, t, -, -, rfl⟩
  · exact hstops
  · simp at htick

theorem stops_iff : Stops s ↔
    (readHead 0 ⟨0, false, 0⟩ 0 s).toOption.any (fun read => read.1.ops = 0 && read.2.isNone) = true := by
  constructor
  · intro h
    simp [h 0 ⟨0, false, 0⟩, Except.toOption]
  · intro h
    cases hread : readHead 0 ⟨0, false, 0⟩ 0 s with
    | error e => simp [hread, Except.toOption] at h
    | ok read =>
        obtain ⟨found, tick⟩ := read
        obtain ⟨hops, rfl⟩ : found.ops = 0 ∧ tick = none := by
          simpa [hread, Except.toOption] using h
        exact stops_of_readHead hread hops

instance (s : List Char) : Decidable (Stops s) := decidable_of_iff _ stops_iff.symm

theorem Stops.of_gap (hg : Gap g) (h : Stops (g ++ s)) : Stops s := by
  have hread := h 0 ⟨0, false, 0⟩
  rw [readHead_gap hg] at hread
  exact stops_of_readHead hread rfl

theorem le_ops_of_readHead {found : HeadExtent} {pending : Nat} {tick : Option Nat}
    (h : readHead i ⟨n, e, k⟩ pending s = .ok (found, tick)) : n ≤ found.ops := by
  rw [readHead_pending] at h
  obtain ⟨a, r, backtick, -, hops, -⟩ := endsHead_of_readHead h
  exact hops.le

theorem Stops.of_char (hblank : isBlank c = false) (hcomment : ∀ i, comment? i c s = none)
    (htick : c ≠ '`') (hdot : c ≠ '.') (hparen : c ≠ '(') : Stops (c :: s) := fun i head => by
  simp [readHead, hblank, hcomment, htick, hdot, hparen]

theorem not_stops_tick : ¬ Stops ('`' :: s) := fun h => by
  have := h 0 ⟨0, false, 0⟩
  rw [readHead, if_neg (by decide), comment?_of_ne (by decide)] at this
  simp at this

theorem not_stops_paren : ¬ Stops ('(' :: s) := fun h => by
  obtain ⟨_, _, -, -, hread⟩ := readHead_paren_cases (h 0 ⟨0, false, 0⟩)
  exact absurd (le_ops_of_readHead hread) (by simp)

/-- Neither a blank nor a comment is at the front of the text. -/
def Bare (s : List Char) : Prop := ∀ i, skipBlanksFrom i 0 s = .ok i

theorem bare_of_skipBlanksFrom (h : skipBlanksFrom i 0 s = .ok i) : Bare s := by
  obtain ⟨-, -, m, -, -, hm, hall, -⟩ := exists_gap h
  obtain rfl : m = 0 := by omega
  exact hall

theorem bare_of_char (hblank : isBlank c = false) (hcomment : ∀ i, comment? i c s = none) :
    Bare (c :: s) := fun i => by simp [skipBlanksFrom, hblank, hcomment]

theorem Bare.not_gap (h : Bare (g ++ s)) (hg : Gap g) : g = [] := by
  have hread := h 0
  rw [skipBlanksFrom_gap hg] at hread
  have := (skipBlanksFrom_bounds hread).1
  exact List.eq_nil_of_length_eq_zero (by omega)

theorem nameLength?_eq_none_iff :
    nameLength? isAsciiNamePart s = none ↔ s.head?.any isNameStart = false := by
  cases s <;> simp [nameLength?]

theorem stops_dot_iff :
    Stops ('.' :: s) ↔ ∃ g t, s = g ++ t ∧ Gap g ∧
      (EndComment t ∨ Bare t ∧ t.head?.any isNameStart = false) := by
  constructor
  · intro h
    have hstop := h 0 ⟨0, false, 0⟩
    rw [readHead_dot] at hstop
    obtain ⟨q, hblanks, hname⟩ := bind_eq_ok_iff.1 hstop
    obtain ⟨g, t, m, rfl, hg, rfl, -, hend⟩ := exists_gap hblanks
    rw [Nat.add_sub_cancel_left] at hname
    refine ⟨g, t, rfl, hg, ?_⟩
    rcases hend with rfl | ⟨hend, -⟩
    · rw [skipBlanksFrom_gap hg] at hblanks
      rw [List.drop_left] at hname
      refine .inr ⟨bare_of_skipBlanksFrom hblanks, nameLength?_eq_none_iff.1 ?_⟩
      cases hlong : nameLength? isAsciiNamePart t with
      | none => rfl
      | some length =>
          rw [hlong, Option.elim_some] at hname
          exact absurd (le_ops_of_readHead hname) (by simp)
    · exact .inl hend
  · rintro ⟨g, t, rfl, hg, hend⟩ i head
    rw [readHead_dot, skipBlanksFrom_gap hg]
    rcases hend with hend | ⟨hbare, hname⟩
    · rw [hend.skipBlanksFrom]
      simp only [bind, Except.bind]
      rw [List.drop_eq_nil_of_le (by simp; omega)]
      rfl
    · rw [hbare]
      simp only [bind, Except.bind]
      rw [Nat.add_sub_cancel_left, List.drop_left, nameLength?_eq_none_iff.2 hname, Option.elim_none]

/-- The second text is the first with some call sites of the tag written anew, or taken as they
are; `j` tells whether a tag at its front would be joined to what is before it. Every call site
has the property once it is written. -/
inductive Recoded (tag : List Char) (P : List Char → Prop) : Bool → List Char → List Char → Prop
  | nil (j : Bool) : Recoded tag P j [] []
  | comment {j : Bool} {s : List Char} (h : EndComment s) : Recoded tag P j s s
  | part {j : Bool} {a s s₂ : List Char} (h : Part a) :
      Recoded tag P (joined a.getLast?) s s₂ → Recoded tag P j (a ++ s) (a ++ s₂)
  | char {j : Bool} {c : Char} {s s₂ : List Char} (opens : opens? 0 c s.head? = none)
      (site : j = false → hasTag tag (c :: s) = true → Siteless 0 false ((c :: s).drop tag.length)) :
      Recoded tag P (joined (some c)) s s₂ → Recoded tag P j (c :: s) (c :: s₂)
  | site {a b s s₂ : List Char} {m : Nat} (old : ¬ Siteless 0 false (a ++ s))
      (neutral : Neutral a) (stops : Stops s) (new : Ops s.head? 0 false b m true) (two : 2 ≤ m)
      (next : (a ++ s).head?.any isNamePart = false) (next' : b.head?.any isNamePart = false)
      (last : joined (tag ++ b).getLast? = joined (tag ++ a).getLast?) (holds : P (tag ++ b)) :
      Recoded tag P (joined (tag ++ a).getLast?) s s₂ →
        Recoded tag P false (tag ++ (a ++ s)) (tag ++ (b ++ s₂))

theorem Part.exists_opens (h : Part a) (hs : c :: s = a ++ r) (i : Nat) :
    ∃ width frame, opens? i c s.head? = some (width, frame) ∧
      skip (i + width) [frame] (s.drop (width - 1)) = .ok (i + a.length) := by
  obtain ⟨d, b, width, frame, rfl, hopens, -, hskip⟩ := h.reads i r
  obtain ⟨rfl, rfl⟩ := List.cons.inj hs
  exact ⟨width, frame, hopens, hskip⟩

theorem Part.ne_nil (h : Part a) : a ≠ [] := by
  obtain ⟨c, b, -, -, rfl, -⟩ := h.reads 0 []
  simp

theorem Part.unique (ha : Part a) (hb : Part b) (h : a ++ s = b ++ t) : a = b ∧ s = t := by
  obtain ⟨c, a', hca⟩ := List.exists_cons_of_ne_nil ha.ne_nil
  have hs : c :: (a' ++ s) = a ++ s := by simp [hca]
  obtain ⟨width, frame, hopens, hskip⟩ := ha.exists_opens hs 0
  obtain ⟨width', frame', hopens', hskip'⟩ := hb.exists_opens (hs.trans h) 0
  obtain ⟨rfl, rfl⟩ := Prod.mk.inj (Option.some.inj (hopens.symm.trans hopens'))
  have hlength : 0 + a.length = 0 + b.length := Except.ok.inj (hskip.symm.trans hskip')
  exact List.append_inj h (by omega)

theorem EndComment.exists_opens (h : EndComment (c :: s)) (i : Nat) :
    opens? i c s.head? = some (2, .lineComment) ∧
      skip (i + 2) [.lineComment] (s.drop 1) = .ok (i + (s.length + 1)) := by
  obtain ⟨b, hs, hb⟩ := h
  obtain ⟨rfl, rfl⟩ := List.cons.inj hs
  refine ⟨by simp [opens?], ?_⟩
  rw [List.drop_one, List.tail_cons, hb, List.length_cons]
  exact congrArg Except.ok (by omega)

theorem EndComment.eq_of_append (h : EndComment (a ++ s)) (ha : Part a) : s = [] := by
  obtain ⟨c, a', hca⟩ := List.exists_cons_of_ne_nil ha.ne_nil
  have hs : c :: (a' ++ s) = a ++ s := by simp [hca]
  rw [← hs] at h
  obtain ⟨width, frame, hopens, hskip⟩ := ha.exists_opens hs 0
  obtain ⟨hopens', hskip'⟩ := h.exists_opens 0
  obtain ⟨rfl, rfl⟩ := Prod.mk.inj (Option.some.inj (hopens.symm.trans hopens'))
  have hlength := Except.ok.inj (hskip.symm.trans hskip')
  refine List.eq_nil_of_length_eq_zero ?_
  simp only [hca, List.length_cons, List.length_append] at hlength
  omega

theorem opens?_name (hc : isAsciiNamePart c = true) (i : Nat) (next : Option Char) :
    opens? i c next = none := by
  have := isInert_of_isAsciiNamePart hc
  simp only [isInert, Bool.and_eq_true] at this
  exact opens?_of_plain this.1.1 i next

namespace Recoded

theorem head?_eq (htag : IsName tag) (h : Recoded tag P j s s₂) : s₂.head? = s.head? := by
  obtain ⟨c, t, rfl, -⟩ := htag
  cases h with
  | nil | comment | char | site => rfl
  | part h =>
      obtain ⟨c, a, rfl⟩ := List.exists_cons_of_ne_nil h.ne_nil
      rfl

/-- A plain character that begins no call site. -/
theorem char_inv (h : Recoded tag P j (c :: s) s₂) (hopens : opens? 0 c s.head? = none)
    (hsite : ∀ a r, c :: s = tag ++ (a ++ r) → j = false → (a ++ r).head?.any isNamePart = false →
      Siteless 0 false (a ++ r)) :
    ∃ s₃, s₂ = c :: s₃ ∧ Recoded tag P (joined (some c)) s s₃ := by
  generalize ht : c :: s = t at h
  cases h with
  | nil => simp at ht
  | comment h => simp [(ht ▸ h).exists_opens 0 |>.1] at hopens
  | part h =>
      obtain ⟨width, frame, hsome, -⟩ := h.exists_opens ht 0
      simp [hsome] at hopens
  | char _ _ h =>
      obtain ⟨rfl, rfl⟩ := List.cons.inj ht
      exact ⟨_, rfl, h⟩
  | site old _ _ _ _ next => exact absurd (hsite _ _ ht rfl next) old

theorem char_inv_of_not_isNameStart (htag : IsName tag) (h : Recoded tag P j (c :: s) s₂)
    (hopens : opens? 0 c s.head? = none) (hc : isNameStart c = false) :
    ∃ s₃, s₂ = c :: s₃ ∧ Recoded tag P (joined (some c)) s s₃ := by
  refine h.char_inv hopens fun a r hs _ _ => ?_
  obtain ⟨d, t, rfl, hd, -⟩ := htag
  obtain ⟨rfl, -⟩ := List.cons.inj hs
  simp [hc] at hd

theorem name_inv (ha : ∀ c ∈ a, isAsciiNamePart c = true) (h : Recoded tag P true (a ++ s) s₂) :
    ∃ s₃, s₂ = a ++ s₃ ∧ Recoded tag P true s s₃ := by
  induction a generalizing s₂ with
  | nil => exact ⟨s₂, rfl, h⟩
  | cons c a ih =>
      obtain ⟨hc, ha⟩ := List.forall_mem_cons.1 ha
      obtain ⟨s₃, rfl, hrest⟩ := h.char_inv (opens?_name hc 0 _) fun _ _ _ hj => by simp at hj
      rw [joined_of_isAsciiNamePart hc] at hrest
      obtain ⟨s₄, rfl, hs⟩ := ih ha hrest
      exact ⟨s₄, rfl, hs⟩

theorem exists_of_name (htag : IsName tag) (ha : ∀ c ∈ a, isAsciiNamePart c = true)
    (h : Recoded tag P true s (a ++ s₂)) : ∃ t, s = a ++ t ∧ Recoded tag P true t s₂ := by
  induction a generalizing s with
  | nil => exact ⟨s, rfl, h⟩
  | cons c a ih =>
      obtain ⟨hc, ha⟩ := List.forall_mem_cons.1 ha
      obtain ⟨s, rfl⟩ := List.head?_eq_some_iff.1 (h.head?_eq htag).symm
      obtain ⟨s₃, hs, hrest⟩ := name_inv (a := [c]) (by simpa using hc) h
      obtain rfl : a ++ s₂ = s₃ := (List.cons.inj hs).2
      obtain ⟨t, rfl, ht⟩ := ih ha hrest
      exact ⟨t, rfl, ht⟩

theorem member_inv (htag : IsName tag) (ha : IsName a) (hs : Ends s.head?)
    (hno : Siteless n false s) (h : Recoded tag P j (a ++ s) s₂) :
    ∃ s₃, s₂ = a ++ s₃ ∧ Recoded tag P true s s₃ := by
  obtain ⟨c, a', rfl, hc, hall⟩ := id ha
  have hpart := isAsciiNamePart_of_isNameStart hc
  obtain ⟨s₃, rfl, hrest⟩ := h.char_inv (opens?_name hpart 0 _) fun b r hb _ hnext => by
    obtain ⟨-, rfl⟩ := ha.unique htag hs (ends_of_not_isNamePart hnext) hb
    exact hno.mono (Nat.zero_le n)
  rw [joined_of_isAsciiNamePart hpart] at hrest
  obtain ⟨s₄, rfl, hs⟩ := name_inv hall hrest
  exact ⟨s₄, rfl, hs⟩

theorem part_inv (htag : IsName tag) (ha : Part a) (h : Recoded tag P j (a ++ s) s₂) :
    ∃ s₃, s₂ = a ++ s₃ ∧ Recoded tag P (joined a.getLast?) s s₃ := by
  obtain ⟨c, a', hca⟩ := List.exists_cons_of_ne_nil ha.ne_nil
  have hs : c :: (a' ++ s) = a ++ s := by simp [hca]
  obtain ⟨width, frame, hopens, -⟩ := ha.exists_opens hs 0
  rw [← hs] at h
  generalize ht : c :: (a' ++ s) = t at h
  cases h with
  | nil => simp at ht
  | comment h =>
      rw [← ht, hs] at h
      obtain rfl := h.eq_of_append ha
      exact ⟨[], by rw [← ht, hs], .nil _⟩
  | part hb hrest =>
      obtain ⟨rfl, rfl⟩ := ha.unique hb (hs.symm.trans ht)
      exact ⟨_, rfl, hrest⟩
  | char hnone _ _ =>
      obtain ⟨rfl, rfl⟩ := List.cons.inj ht
      exact absurd (hopens.symm.trans hnone) (by simp)
  | site =>
      obtain ⟨d, t, rfl, hd, -⟩ := htag
      obtain ⟨rfl, -⟩ := List.cons.inj ht
      simp [opens?_name (isAsciiNamePart_of_isNameStart hd)] at hopens

theorem gap_inv (htag : IsName tag) (hg : Gap g) (h : Recoded tag P j (g ++ s) s₂) :
    ∃ j' s₃, s₂ = g ++ s₃ ∧ Recoded tag P j' s s₃ := by
  induction hg generalizing j s₂ with
  | nil => exact ⟨j, s₂, rfl, h⟩
  | @blank c g hc _ ih =>
      have hplain := isInert_of_isBlank hc
      simp only [isInert, Bool.and_eq_true] at hplain
      have hstart : isNameStart c = false := Bool.eq_false_iff.2 fun hstart => by
        simp [not_isBlank_of_isAsciiNamePart (isAsciiNamePart_of_isNameStart hstart)] at hc
      obtain ⟨s₃, rfl, hrest⟩ :=
        h.char_inv_of_not_isNameStart htag (opens?_of_plain hplain.1.1 0 _) hstart
      obtain ⟨j', s₄, rfl, hs⟩ := ih hrest
      exact ⟨j', s₄, rfl, hs⟩
  | comment ha _ ih =>
      rw [List.append_assoc] at h
      obtain ⟨s₃, rfl, hrest⟩ := h.part_inv htag (.comment ha)
      obtain ⟨j', s₄, rfl, hs⟩ := ih hrest
      exact ⟨j', s₄, by simp, hs⟩

end Recoded

/-- Groups that are open before both texts end in both, in the first after `n` characters, and what
is left of the second is that of the first recoded. -/
def EndsAlike (tag : List Char) (P : List Char → Prop) (closers : List Char) (n : Nat)
    (s s₂ : List Char) : Prop :=
  ∃ a r b r₂ j, s = a ++ r ∧ a.length = n ∧ s₂ = b ++ r₂ ∧
    (∀ k, skip k (closers.map .group) s₂ = .ok (k + b.length)) ∧ Recoded tag P j r r₂

namespace EndsAlike

variable {closers : List Char} {closer : Char}

theorem of_no_group (h : Recoded tag P j s s₂) (hskip : skip i [] s = .ok (i + n)) :
    EndsAlike tag P [] n s s₂ := by
  have hn : n = 0 := by simpa [skip, eq_comm] using hskip
  exact ⟨[], s, [], s₂, j, rfl, hn.symm, rfl, fun k => by simp [skip], h⟩

theorem append (ha : Neutral a) (hb : Neutral b)
    (hskip : skip i (.group closer :: closers.map .group) (a ++ s) = .ok (i + n))
    (h : ∀ {i n : Nat}, skip i (.group closer :: closers.map .group) s = .ok (i + n) →
      EndsAlike tag P (closer :: closers) n s s₂) :
    EndsAlike tag P (closer :: closers) n (a ++ s) (b ++ s₂) := by
  rw [ha] at hskip
  obtain ⟨n, rfl⟩ := Nat.exists_eq_add_of_le (Nat.le_of_add_le_add_left (le_of_skip hskip))
  rw [← Nat.add_assoc] at hskip
  obtain ⟨a', r, b', r₂, j, rfl, rfl, rfl, hread, hrest⟩ := h hskip
  refine ⟨a ++ a', r, b ++ b', r₂, j, by simp, by simp, by simp, fun k => ?_, hrest⟩
  rw [List.map_cons, hb, ← List.map_cons, hread, List.length_append, Nat.add_assoc]

theorem cons (closers' : List Char) (hmove : ∀ (k : Nat) (t : List Char), opens? 0 c t.head? = none →
      skip k (closers.map .group) (c :: t) = skip (k + 1) (closers'.map .group) t)
    (hs : opens? 0 c s.head? = none) (hs₂ : opens? 0 c s₂.head? = none)
    (hskip : skip i (closers.map .group) (c :: s) = .ok (i + n))
    (h : ∀ {i n : Nat}, skip i (closers'.map .group) s = .ok (i + n) →
      EndsAlike tag P closers' n s s₂) :
    EndsAlike tag P closers n (c :: s) (c :: s₂) := by
  rw [hmove i s hs] at hskip
  obtain ⟨n, rfl⟩ := Nat.exists_eq_add_of_le (Nat.le_of_add_le_add_left (le_of_skip hskip))
  rw [← Nat.add_assoc] at hskip
  obtain ⟨a, r, b, r₂, j, rfl, rfl, rfl, hread, hrest⟩ := h hskip
  refine ⟨c :: a, r, c :: b, r₂, j, rfl, by simp; omega, rfl, fun k => ?_, hrest⟩
  rw [hmove k _ hs₂, hread, List.length_cons]
  exact congrArg Except.ok (by omega)

end EndsAlike

theorem EndComment.skip_group (h : EndComment s) (i : Nat) (closer : Char) (frames : List Frame) :
    skip i (.group closer :: frames) s = .error ⟨.unbalanced, i + s.length⟩ := by
  obtain ⟨b, rfl, hb⟩ := h
  have hrest := skip_append (i + 2) [.lineComment] (.group closer :: frames) b
  rw [hb] at hrest
  simp only [Except.bind, Nat.add_sub_cancel_left, List.drop_length, skip_nil, atEnd] at hrest
  rw [skip_move_two (.groupOpens (.lineComment rfl rfl))]
  simpa [Nat.add_assoc, Nat.add_comm 2] using hrest

/-- What closes open groups before closes them after. -/
theorem Recoded.skip (htag : IsName tag) (h : Recoded tag P j s s₂) (closers : List Char)
    (hskip : Script.skip i (closers.map .group) s = .ok (i + n)) :
    EndsAlike tag P closers n s s₂ := by
  induction h generalizing i n closers with
  | nil j =>
      cases closers with
      | nil => exact .of_no_group (.nil j) hskip
      | cons closer closers => simp [Script.skip, atEnd] at hskip
  | comment h =>
      cases closers with
      | nil => exact .of_no_group (.comment (j := false) h) hskip
      | cons closer closers => simp [h.skip_group] at hskip
  | part ha h ih =>
      cases closers with
      | nil => exact .of_no_group (.part (j := false) ha h) hskip
      | cons closer closers => exact .append ha.neutral ha.neutral hskip fun hskip => ih _ hskip
  | site old neutral stops new two next next' last holds h ih =>
      cases closers with
      | nil => exact .of_no_group (.site old neutral stops new two next next' last holds h) hskip
      | cons closer closers =>
          rw [← List.append_assoc] at hskip ⊢
          rw [← List.append_assoc]
          exact .append (htag.neutral.append neutral) (htag.neutral.append new.neutral) hskip
            fun hskip => ih _ hskip
  | @char j c s s₂ opens site h ih =>
      cases closers with
      | nil => exact .of_no_group (.char opens site h) hskip
      | cons closer closers =>
          have opens' : opens? 0 c s₂.head? = none := by rwa [h.head?_eq htag]
          cases hopen : closerOf? c with
          | some inner =>
              exact .cons (inner :: closer :: closers) (fun _ _ _ => skip_move (.groupNested hopen))
                opens opens' hskip (ih _)
          | none =>
              by_cases hclose : isCloser c = true
              · by_cases hcloser : closer = c
                · subst hcloser
                  exact .cons closers (fun _ _ _ => skip_move (.groupEnd hclose)) opens opens' hskip (ih _)
                · rw [List.map_cons, skip_cons] at hskip
                  simp [Frame.move, opens?_eq_none_shift opens i, hopen, hclose, Ne.symm hcloser] at hskip
              · rw [Bool.not_eq_true] at hclose
                exact .cons (closer :: closers)
                  (fun k _ ht => skip_move (.groupChar (opens?_eq_none_shift ht k) hopen hclose))
                  opens opens' hskip (ih _)

theorem comment?_of_opens (h : opens? 0 c s.head? = none) (i : Nat) : comment? i c s = none := by
  simp [comment?, opens?_eq_none_shift h i]

theorem IsName.exists_head (h : IsName a) :
    ∃ c t, a = c :: t ∧ isNameStart c = true ∧ isBlank c = false ∧ c ≠ '/' ∧ c ≠ '`' ∧ c ≠ '.' ∧
      c ≠ '(' := by
  obtain ⟨c, t, rfl, hc, -⟩ := h
  have hpart := isAsciiNamePart_of_isNameStart hc
  refine ⟨c, t, rfl, hc, not_isBlank_of_isAsciiNamePart hpart, ?_⟩
  have hplain : ∀ d ∈ ['/', '`', '.', '('], c ≠ d := by
    rintro d hd rfl
    simp only [List.mem_cons, List.not_mem_nil, or_false] at hd
    rcases hd with rfl | rfl | rfl | rfl <;> exact absurd hpart (by decide)
  simpa using hplain

theorem exists_head_of_isQuote (h : isQuote c = true) :
    isBlank c = false ∧ c ≠ '/' ∧ c ≠ '`' ∧ c ≠ '.' ∧ c ≠ '(' := by
  simp only [isQuote, Bool.or_eq_true, decide_eq_true_eq] at h
  rcases h with rfl | rfl <;> decide

namespace Recoded

theorem nil_inv (h : Recoded tag P j [] s₂) (htag : IsName tag) : s₂ = [] := by
  simpa using h.head?_eq htag

theorem endComment_inv (htag : IsName tag) (h : Recoded tag P j s s₂) (hs : EndComment s) :
    s₂ = s := by
  cases h with
  | nil | comment => rfl
  | part ha h =>
      obtain rfl := hs.eq_of_append ha
      rw [h.nil_inv htag]
  | char opens => simp [(hs.exists_opens 0).1] at opens
  | site =>
      obtain ⟨c, t, rfl, -, -, hslash, -⟩ := htag.exists_head
      obtain ⟨b, hb, -⟩ := hs
      exact absurd (List.cons.inj hb).1 hslash

theorem bare (htag : IsName tag) (h : Recoded tag P j s s₂) (hs : Bare s) : Bare s₂ := by
  cases h with
  | nil | comment => exact hs
  | part ha h =>
      cases ha with
      | string hq _ =>
          obtain ⟨hblank, hslash, -⟩ := exists_head_of_isQuote hq
          exact bare_of_char hblank (comment?_of_ne hslash · _)
      | template _ => exact bare_of_char (by decide) (comment?_of_ne (by decide) · _)
      | comment ha =>
          have hg := Gap.comment ha .nil
          rw [List.append_nil] at hg
          exact absurd (hs.not_gap hg) (Part.comment ha).ne_nil
  | @char j c s s₂ opens site h =>
      refine bare_of_char ?_ (comment?_of_opens (by rwa [h.head?_eq htag]))
      refine Bool.eq_false_iff.2 fun hblank => ?_
      exact absurd (hs.not_gap (g := [c]) (.blank hblank .nil)) (by simp)
  | site =>
      obtain ⟨c, t, rfl, -, hblank, hslash, -⟩ := htag.exists_head
      exact bare_of_char hblank (comment?_of_ne hslash · _)

theorem stops (htag : IsName tag) (h : Recoded tag P j s s₂) (hs : Stops s) : Stops s₂ := by
  induction h with
  | nil | comment => exact hs
  | part ha h ih =>
      cases ha with
      | string hq _ =>
          obtain ⟨hblank, hslash, htick, hdot, hparen⟩ := exists_head_of_isQuote hq
          exact .of_char hblank (comment?_of_ne hslash · _) htick hdot hparen
      | template _ => exact absurd hs not_stops_tick
      | comment ha =>
          have hg := Gap.comment ha .nil
          rw [List.append_nil] at hg
          exact (ih (hs.of_gap hg)).gap hg
  | @char j c s s₂ opens site h ih =>
      have opens' : opens? 0 c s₂.head? = none := by rwa [h.head?_eq htag]
      by_cases hblank : isBlank c = true
      · have hg : Gap [c] := .blank hblank .nil
        exact (ih (hs.of_gap hg)).gap hg
      by_cases hdot : c = '.'
      · subst hdot
        obtain ⟨g, t, rfl, hg, ht⟩ := stops_dot_iff.1 hs
        obtain ⟨j', t₂, rfl, hrest⟩ := h.gap_inv htag hg
        refine stops_dot_iff.2 ⟨g, t₂, rfl, hg, ht.imp (fun hend => ?_) fun ⟨hbare, hname⟩ => ?_⟩
        · rwa [hrest.endComment_inv htag hend]
        · exact ⟨hrest.bare htag hbare, by rwa [hrest.head?_eq htag]⟩
      have htick : c ≠ '`' := by
        rintro rfl
        simp [opens?_tick] at opens
      have hparen : c ≠ '(' := by
        rintro rfl
        exact not_stops_paren hs
      exact .of_char (Bool.eq_false_iff.2 hblank) (comment?_of_opens opens') htick hdot hparen
  | site =>
      obtain ⟨c, t, rfl, -, hblank, hslash, htick, hdot, hparen⟩ := htag.exists_head
      exact .of_char hblank (comment?_of_ne hslash · _) htick hdot hparen

/-- The operations of a head that is no call site are followed by the operations of such a head. -/
theorem ops (htag : IsName tag) (hops : Ops r.head? n e a n' e') (hstops : Stops r)
    (hno : ¬ (2 ≤ n' ∧ e' = true)) (h : Recoded tag P j (a ++ r) s₂) :
    ∃ b r₂, s₂ = b ++ r₂ ∧ Ops r₂.head? n e b n' e' ∧ Stops r₂ := by
  generalize hnext : r.head? = next at hops
  induction hops generalizing j s₂ with
  | nil n e => exact ⟨[], s₂, rfl, .nil n e, h.stops htag hstops⟩
  | @member n n' e e' g g' name a hg hg' hname hend hops ih =>
      simp only [List.append_assoc, List.cons_append] at h
      obtain ⟨_, s₃, rfl, h₃⟩ := h.gap_inv htag hg
      obtain ⟨s₄, rfl, h₄⟩ := h₃.char_inv_of_not_isNameStart htag (by simp [opens?]) (by decide)
      obtain ⟨_, s₅, rfl, h₅⟩ := h₄.gap_inv htag hg'
      have hends : Ends (a ++ r).head? := by rwa [List.head?_append, hnext]
      obtain ⟨s₆, rfl, h₆⟩ := h₅.member_inv htag hname hends
        ⟨a, r, n', e', rfl, by rwa [hnext], hstops, hno⟩
      obtain ⟨b, r₂, rfl, hnew, hstops₂⟩ := ih hno h₆
      refine ⟨g ++ '.' :: (g' ++ (name ++ b)), r₂, by simp, .member hg hg' hname ?_ hnew, hstops₂⟩
      rwa [← List.head?_append, h₆.head?_eq htag]
  | @call n n' e e' g b a hg hb hops ih =>
      simp only [List.append_assoc, List.cons_append] at h
      obtain ⟨_, s₃, rfl, h₃⟩ := h.gap_inv htag hg
      obtain ⟨s₄, rfl, h₄⟩ := h₃.char_inv_of_not_isNameStart htag (by simp [opens?]) (by decide)
      obtain ⟨b', r', b₂, r₂, _, hsplit, hlength, rfl, hread, h₅⟩ :=
        h₄.skip htag [')'] (hb 0 (.group ')') (a ++ r) rfl)
      obtain ⟨rfl, rfl⟩ := List.append_inj hsplit hlength.symm
      obtain ⟨a₂, r₃, rfl, hnew, hstops₂⟩ := ih hno h₅
      refine ⟨g ++ '(' :: (b₂ ++ a₂), r₃, by simp, .call hg ?_ hnew, hstops₂⟩
      exact closes_of_skip (hread 0) (.inr (by simp))

/-- A head that is no call site before is none after. -/
theorem siteless (htag : IsName tag) (h : Recoded tag P j s s₂) (hs : Siteless n e s) :
    Siteless n e s₂ := by
  obtain ⟨a, r, n', e', rfl, hops, hstops, hno⟩ := hs
  obtain ⟨b, r₂, rfl, hnew, hstops₂⟩ := h.ops htag hops hstops hno
  exact ⟨b, r₂, n', e', rfl, hnew, hstops₂, hno⟩

/-- A tag after a character that is taken as it is stood there before. -/
theorem siteless_of_hasTag (htag : IsName tag) (h : Recoded tag P (joined (some c)) s s₂)
    (hsite : hasTag tag (c :: s) = true → Siteless 0 false ((c :: s).drop tag.length))
    (hs₂ : hasTag tag (c :: s₂) = true) : Siteless 0 false ((c :: s₂).drop tag.length) := by
  obtain ⟨t₂, ht₂, hend⟩ := hasTag_eq_true_iff.1 hs₂
  obtain ⟨d, u, rfl, hd, hu⟩ := id htag
  obtain ⟨rfl, rfl⟩ := List.cons.inj ht₂
  rw [joined_of_isAsciiNamePart (isAsciiNamePart_of_isNameStart hd)] at h
  obtain ⟨t, rfl, hrest⟩ := h.exists_of_name htag hu
  have hold := hsite (hasTag_eq_true_iff.2 ⟨t, rfl, by rwa [← hrest.head?_eq htag]⟩)
  rw [← List.cons_append, List.drop_left] at hold
  rw [ht₂, List.drop_left]
  exact hrest.siteless htag hold

end Recoded

end CssExtract.Script
