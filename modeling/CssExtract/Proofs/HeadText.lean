import CssExtract.Proofs.Enclosure

namespace CssExtract.Script

open Text

variable {a b g r s : List Char} {c : Char} {next : Option Char} {i k n n' pending : Nat} {e e' : Bool}
  {head : HeadExtent}

/-- Blanks and whole comments. -/
inductive Gap : List Char → Prop
  | nil : Gap []
  | blank {c : Char} {g : List Char} (h : isBlank c = true) : Gap g → Gap (c :: g)
  | comment {a g : List Char} (h : Comment a) : Gap g → Gap (a ++ g)

theorem Gap.append (hg : Gap g) (ha : Gap a) : Gap (g ++ a) := by
  induction hg with
  | nil => exact ha
  | blank h _ ih => exact .blank h ih
  | comment h _ ih => rw [List.append_assoc]; exact .comment h ih

theorem Gap.neutral (hg : Gap g) : Neutral g := by
  induction hg with
  | nil => exact .nil
  | blank h _ ih => exact (Neutral.of_inert (isInert_of_isBlank h)).append ih
  | comment h _ ih => exact (Part.comment h).neutral.append ih

theorem comment?_of_ne (hc : c ≠ '/') (i : Nat) (s : List Char) : comment? i c s = none := by
  simp only [comment?, opens?, hc, decide_false, Bool.false_and, Bool.false_eq_true, if_false]
  split_ifs <;> rfl

theorem Comment.reads (h : Comment a) :
    ∃ b, a = '/' :: b ∧ ∀ i r, comment? i '/' (b ++ r) = some (.ok (i + a.length)) := by
  cases h with
  | @line a h =>
      refine ⟨'/' :: a, rfl, fun i r => ?_⟩
      simp [comment?, opens?, h (i + 2) .lineComment r rfl]
      omega
  | @block a h =>
      refine ⟨'*' :: a, rfl, fun i r => ?_⟩
      simp [comment?, opens?, h (i + 2) (.blockComment i) r rfl]
      omega

theorem opens?_of_comment? {stop : Except ScanError Nat} (h : comment? i c s = some stop) :
    c = '/' ∧ ∃ f, opens? i c s.head? = some (2, f) ∧ skip (i + 2) [f] (s.drop 1) = stop := by
  simp only [comment?] at h
  cases hopens : opens? i c s.head? with
  | none => simp [hopens] at h
  | some found =>
      obtain ⟨width, f⟩ := found
      rw [hopens] at h
      cases opens?_eq_some_iff.1 hopens with
      | string | template => simp at h
      | lineComment hfirst => exact ⟨hfirst, _, rfl, by simpa using h⟩
      | blockComment hfirst => exact ⟨hfirst, _, rfl, by simpa using h⟩

theorem comment?_cases {stop : Nat} (h : comment? i c s = some (.ok stop)) :
    ∃ a r, c :: s = a ++ r ∧ stop = i + a.length ∧ (Comment a ∨ r = [] ∧ EndComment a) := by
  obtain ⟨rfl, f, hopens, hskip⟩ := opens?_of_comment? h
  obtain ⟨a, r, hs, rfl, ha | hr⟩ := part_cases hopens hskip
  · cases ha with
    | string hq _ =>
        obtain rfl := (List.cons.inj hs).1
        simp [isQuote] at hq
    | template _ => simp at hs
    | comment ha => exact ⟨a, r, hs, rfl, .inl ha⟩
  · exact ⟨a, r, hs, rfl, .inr hr⟩

theorem EndComment.reads (h : EndComment s) :
    ∃ b, s = '/' :: b ∧ ∀ i, comment? i '/' b = some (.ok (i + s.length)) := by
  obtain ⟨b, rfl, hb⟩ := h
  refine ⟨'/' :: b, rfl, fun i => ?_⟩
  simp [comment?, opens?, hb]
  omega

theorem skipBlanksFrom_pending (hle : pending ≤ s.length) :
    skipBlanksFrom i pending s = skipBlanksFrom (i + pending) 0 (s.drop pending) := by
  induction pending generalizing i s with
  | zero => rfl
  | succ pending ih =>
      cases s with
      | nil => simp at hle
      | cons c s =>
          rw [skipBlanksFrom, ih (by simpa using hle), List.drop_succ_cons]
          congr 1
          omega

theorem skipBlanksFrom_gap (hg : Gap g) (i : Nat) (r : List Char) :
    skipBlanksFrom i 0 (g ++ r) = skipBlanksFrom (i + g.length) 0 r := by
  induction hg generalizing i with
  | nil => rfl
  | blank h _ ih =>
      rw [List.cons_append, skipBlanksFrom, if_pos h, ih, List.length_cons]
      congr 1
      omega
  | @comment a g h _ ih =>
      obtain ⟨b, rfl, hb⟩ := h.reads
      rw [List.append_assoc, List.cons_append, skipBlanksFrom, if_neg (by decide), hb]
      simp only [bind, Except.bind, List.length_cons, List.length_append]
      rw [skipBlanksFrom_pending (by simp; omega),
        show i + (b.length + 1) - (i + 1) = b.length by omega, List.drop_left, ih]
      congr 1
      omega

theorem readHead_pending : readHead i head pending s = readHead (i + pending) head 0 (s.drop pending) := by
  induction pending generalizing i s with
  | zero => rfl
  | succ pending ih =>
      cases s with
      | nil => simp [readHead]
      | cons c s =>
          rw [readHead, ih, List.drop_succ_cons]
          congr 1
          omega

theorem readHead_gap (hg : Gap g) (i : Nat) (r : List Char) :
    readHead i head 0 (g ++ r) = readHead (i + g.length) head 0 r := by
  induction hg generalizing i with
  | nil => rfl
  | blank h _ ih =>
      rw [List.cons_append, readHead, if_pos h, ih, List.length_cons]
      congr 1
      omega
  | @comment a g h _ ih =>
      obtain ⟨b, rfl, hb⟩ := h.reads
      rw [List.append_assoc, List.cons_append, readHead, if_neg (by decide), hb]
      simp only [bind, Except.bind, List.length_cons, List.length_append]
      rw [readHead_pending, show i + (b.length + 1) - (i + 1) = b.length by omega, List.drop_left, ih]
      congr 1
      omega

/-- A name of the source. -/
def IsName (s : List Char) : Prop :=
  ∃ c t, s = c :: t ∧ isNameStart c = true ∧ ∀ d ∈ t, isAsciiNamePart d = true

instance : (s : List Char) → Decidable (IsName s)
  | [] => .isFalse (by rintro ⟨c, t, h, -⟩; simp at h)
  | c :: t =>
    decidable_of_iff (isNameStart c = true ∧ t.all isAsciiNamePart = true) <| by
      rw [List.all_eq_true]
      exact ⟨fun ⟨hc, ht⟩ => ⟨c, t, rfl, hc, ht⟩, by rintro ⟨_, _, h, hc, ht⟩; cases h; exact ⟨hc, ht⟩⟩

def Ends (next : Option Char) : Prop := next.any isAsciiNamePart = false

theorem isAsciiNamePart_of_isNameStart (h : isNameStart c = true) : isAsciiNamePart c = true := by
  simp only [isNameStart, Bool.or_eq_true, decide_eq_true_eq] at h
  rcases h with (h | h) | h <;> simp [isAsciiNamePart, isAsciiWord, Char.isAlphanum, h]

theorem not_isBlank_of_isAsciiNamePart (h : isAsciiNamePart c = true) : isBlank c = false := by
  have hrange : 36 = c.toNat ∨ 48 ≤ c.toNat ∧ c.toNat ≤ 122 := by
    have halpha : c.isAlpha = (c.isUpper || c.isLower) := rfl
    have hupper : c.isUpper = decide (c.val ≥ 'A'.val ∧ c.val ≤ 'Z'.val) := rfl
    have hlower : c.isLower = (decide (c.val ≥ 'a'.val) && decide (c.val ≤ 'z'.val)) := rfl
    simp only [isAsciiNamePart, isAsciiWord, Char.isAlphanum, halpha, hupper, hlower, Char.isDigit,
      Bool.or_eq_true, Bool.and_eq_true, decide_eq_true_eq, ge_iff_le, UInt32.le_iff_toNat_le] at h
    rcases h with ((((⟨hlow, hhigh⟩ | ⟨hlow, hhigh⟩) | ⟨hlow, hhigh⟩) | rfl) | rfl)
    · exact .inr ⟨Nat.le_trans (by decide) hlow, Nat.le_trans hhigh (by decide)⟩
    · exact .inr ⟨Nat.le_trans (by decide) hlow, Nat.le_trans hhigh (by decide)⟩
    · exact .inr ⟨Nat.le_trans (by decide) hlow, Nat.le_trans hhigh (by decide)⟩
    · exact .inr (by decide)
    · exact .inl rfl
  rw [Bool.eq_false_iff]
  intro hblank
  simp only [isBlank, Bool.or_eq_true, Bool.and_eq_true, decide_eq_true_eq, beq_iff_eq] at hblank
  omega

theorem IsName.isEmpty (h : IsName s) : s.isEmpty = false := by
  obtain ⟨c, t, rfl, -⟩ := h
  rfl

theorem IsName.all (h : IsName s) : ∀ d ∈ s, isAsciiNamePart d = true := by
  obtain ⟨c, t, rfl, hc, ht⟩ := h
  exact List.forall_mem_cons.2 ⟨isAsciiNamePart_of_isNameStart hc, ht⟩

theorem isInert_of_isAsciiNamePart (h : isAsciiNamePart c = true) : isInert c = true := by
  refine isInert_iff.2 fun hmem => ?_
  simp only [List.mem_cons, List.not_mem_nil, or_false] at hmem
  rcases hmem with rfl | rfl | rfl | rfl | rfl | rfl | rfl | rfl | rfl | rfl <;> exact absurd h (by decide)

theorem IsName.neutral (h : IsName s) : Neutral s :=
  .of_all_inert fun d hd => isInert_of_isAsciiNamePart (h.all d hd)

theorem skipBlanksFrom_name (h : IsName s) (i : Nat) (r : List Char) :
    skipBlanksFrom i 0 (s ++ r) = .ok i := by
  obtain ⟨c, t, rfl, hc, -⟩ := h
  have hpart := isAsciiNamePart_of_isNameStart hc
  have hslash : c ≠ '/' := by
    rintro rfl
    simp [isAsciiNamePart, isAsciiWord] at hpart
  rw [List.cons_append, skipBlanksFrom, not_isBlank_of_isAsciiNamePart hpart, comment?_of_ne hslash]
  rfl

theorem nameLength?_append (h : IsName s) (hr : Ends r.head?) :
    nameLength? isAsciiNamePart (s ++ r) = some s.length := by
  obtain ⟨c, t, rfl, hc, ht⟩ := h
  rw [List.cons_append, nameLength?, if_pos hc, List.takeWhile_append_of_pos ht]
  cases r with
  | nil => simp
  | cons d r =>
      have hd : isAsciiNamePart d = false := by simpa [Ends] using hr
      simp [hd]

theorem exists_name (h : nameLength? isAsciiNamePart s = some n) :
    ∃ a r, s = a ++ r ∧ a.length = n ∧ IsName a ∧ Ends r.head? := by
  cases s with
  | nil => simp [nameLength?] at h
  | cons c s =>
      simp only [nameLength?] at h
      split_ifs at h with hc
      obtain rfl := Option.some.inj h
      refine ⟨c :: s.takeWhile isAsciiNamePart, s.dropWhile isAsciiNamePart, by simp, rfl,
        ⟨c, _, rfl, hc, fun d hd => List.mem_takeWhile_imp hd⟩, ?_⟩
      have hnot := List.head?_dropWhile_not isAsciiNamePart s
      cases hd : (s.dropWhile isAsciiNamePart).head? <;> simp_all [Ends]

theorem readHead_dot (i : Nat) (head : HeadExtent) (s : List Char) :
    readHead i head 0 ('.' :: s) = (do
      let name ← skipBlanksFrom (i + 1) 0 s
      (nameLength? isAsciiNamePart (s.drop (name - (i + 1)))).elim (.ok (head, none)) fun length =>
        readHead (i + 1) ⟨head.ops + 1, false, name + length⟩ (name + length - (i + 1)) s) := by
  rw [readHead, if_neg (by decide), comment?_of_ne (by decide)]
  simp only [show ¬ ('.' = ('`' : Char)) by decide, if_false, if_true, bind, Except.bind]
  cases skipBlanksFrom (i + 1) 0 s with
  | error e => rfl
  | ok name =>
      cases h : nameLength? isAsciiNamePart (s.drop (name - (i + 1))) <;> simp only [h, Option.elim]

theorem readHead_paren (i : Nat) (head : HeadExtent) (s : List Char) :
    readHead i head 0 ('(' :: s) = (do
      let stop ← skip (i + 1) [.group ')'] s
      readHead (i + 1) ⟨head.ops + 1, true, stop⟩ (stop - (i + 1)) s) := by
  rw [readHead, if_neg (by decide), comment?_of_ne (by decide)]
  simp only [show ¬ ('(' = ('`' : Char)) by decide, show ¬ ('(' = ('.' : Char)) by decide, if_false,
    if_true]

/-- A sequence of member accesses and calls, which `next` follows: the number of them and whether
the last is a call, from what these are before it to what they are after it. -/
inductive Ops (next : Option Char) : Nat → Bool → List Char → Nat → Bool → Prop
  | nil (n : Nat) (e : Bool) : Ops next n e [] n e
  | member {n n' : Nat} {e e' : Bool} {g g' name a : List Char} (hg : Gap g) (hg' : Gap g')
      (hname : IsName name) (hend : Ends (a.head?.or next)) :
      Ops next (n + 1) false a n' e' → Ops next n e (g ++ '.' :: (g' ++ (name ++ a))) n' e'
  | call {n n' : Nat} {e e' : Bool} {g b a : List Char} (hg : Gap g) (h : Closes (.group ')') b) :
      Ops next (n + 1) true a n' e' → Ops next n e (g ++ '(' :: (b ++ a)) n' e'

namespace Ops

theorem neutral (h : Ops next n e a n' e') : Neutral a := by
  induction h with
  | nil => exact .nil
  | member hg hg' hname _ _ ih =>
      exact hg.neutral.append ((Neutral.of_inert (by decide)).append
        (hg'.neutral.append (hname.neutral.append ih)))
  | call hg hb _ ih =>
      rw [← List.cons_append]
      exact hg.neutral.append ((Neutral.group rfl hb).append ih)

theorem le (h : Ops next n e a n' e') : n ≤ n' := by
  induction h with
  | nil => exact Nat.le_refl _
  | member _ _ _ _ _ ih | call _ _ _ ih => omega

theorem eq_nil_iff (h : Ops next n e a n' e') : a = [] ↔ n' = n := by
  cases h with
  | nil => simp
  | member _ _ _ _ h | call _ _ h =>
      have := h.le
      simp
      omega

theorem eq_of_nil (h : Ops next n e [] n' e') : n' = n ∧ e' = e := by
  generalize hs : [] = s at h
  cases h with
  | nil => exact ⟨rfl, rfl⟩
  | member | call => simp at hs

theorem gap (hg : Gap g) (h : Ops next n e a n' e') (ha : a ≠ []) : Ops next n e (g ++ a) n' e' := by
  cases h with
  | nil => exact absurd rfl ha
  | member hg' hg'' hname hend h =>
      rw [← List.append_assoc]
      exact .member (hg.append hg') hg'' hname hend h
  | call hg' hb h =>
      rw [← List.append_assoc]
      exact .call (hg.append hg') hb h

theorem readHead (h : Ops next n e a n' e') (hnext : r.head? = next) (i : Nat) :
    readHead i ⟨n, e, i⟩ 0 (a ++ r) = readHead (i + a.length) ⟨n', e', i + a.length⟩ 0 r := by
  induction h generalizing i with
  | nil => rfl
  | @member n n' e e' g g' name a hg hg' hname hend _ ih =>
      simp only [List.append_assoc, List.cons_append]
      rw [readHead_gap hg, readHead_dot, skipBlanksFrom_gap hg', skipBlanksFrom_name hname]
      simp only [bind, Except.bind]
      rw [show i + g.length + 1 + g'.length - (i + g.length + 1) = g'.length by omega, List.drop_left,
        nameLength?_append hname (by rwa [List.head?_append, hnext]), Option.elim_some]
      rw [readHead_pending, show i + g.length + 1 + g'.length + name.length - (i + g.length + 1) =
        g'.length + name.length by omega, ← List.append_assoc, List.drop_left' (by simp),
        ← Nat.add_assoc, ih]
      congr 1 <;> simp <;> omega
  | @call n n' e e' g b a hg hb _ ih =>
      simp only [List.append_assoc, List.cons_append]
      rw [readHead_gap hg, readHead_paren, hb _ _ _ rfl]
      simp only [bind, Except.bind]
      rw [readHead_pending, show i + g.length + 1 + b.length - (i + g.length + 1) = b.length by omega,
        List.drop_left, ih]
      congr 1 <;> simp <;> omega

end Ops

def Stops (r : List Char) : Prop := ∀ i head, readHead i head 0 r = .ok (head, none)

theorem Stops.gap (hg : Gap g) (h : Stops r) : Stops (g ++ r) := fun i head => by
  rw [readHead_gap hg, h]

theorem Stops.nil : Stops [] := fun _ _ => rfl

theorem EndComment.stops (h : EndComment s) : Stops s := fun i head => by
  obtain ⟨b, rfl, hb⟩ := h.reads
  rw [readHead, if_neg (by decide), hb]
  simp only [bind, Except.bind]
  rw [readHead_pending, List.drop_eq_nil_of_le (by simp; omega), readHead]

/-- What a head is followed by: nothing that belongs to it, or a template after a gap. -/
def Follows (r : List Char) (backtick : Option Nat) : Prop :=
  (backtick = none ∧ Stops r) ∨ ∃ g t, r = g ++ '`' :: t ∧ Gap g ∧ backtick = some g.length

theorem Follows.gap {backtick : Option Nat} (hg : Gap g) (h : Follows r backtick) :
    Follows (g ++ r) (backtick.map (g.length + ·)) := by
  rcases h with ⟨rfl, h⟩ | ⟨g', t, rfl, hg', rfl⟩
  · exact .inl ⟨rfl, h.gap hg⟩
  · exact .inr ⟨g ++ g', t, by simp, hg.append hg', by simp⟩

theorem EndComment.skipBlanksFrom (h : EndComment s) (i : Nat) :
    skipBlanksFrom i 0 s = .ok (i + s.length) := by
  obtain ⟨b, rfl, hb⟩ := h.reads
  rw [Script.skipBlanksFrom, if_neg (by decide), hb]
  simp only [bind, Except.bind, List.length_cons]
  rw [skipBlanksFrom_pending (by omega), List.drop_eq_nil_of_le (by omega), Script.skipBlanksFrom]
  exact congrArg Except.ok (by omega)

theorem comment?_eq_none_iff :
    comment? i c s = none ↔ ¬ (c = '/' ∧ (s.head? = some '/' ∨ s.head? = some '*')) := by
  simp only [comment?, opens?]
  split_ifs with hquote htick hline hblock <;> simp_all
  rintro rfl
  simp at hquote

theorem exists_gap (h : skipBlanksFrom i 0 s = .ok k) :
    ∃ g t m, s = g ++ t ∧ Gap g ∧ k = i + m ∧ (∀ j, skipBlanksFrom j 0 s = .ok (j + m)) ∧
      (m = g.length ∨ EndComment t ∧ m = s.length) := by
  induction hn : s.length using Nat.strongRecOn generalizing s i with
  | _ l ih =>
    cases s with
    | nil =>
        obtain rfl : i = k := by simpa [skipBlanksFrom] using h
        exact ⟨[], [], 0, rfl, .nil, rfl, fun j => rfl, .inl rfl⟩
    | cons c s =>
        -- the text after a blank or a comment
        have later {g s' : List Char} (hs : c :: s = g ++ s') (hg : Gap g) (hne : g ≠ []) :
            ∃ g t m, c :: s = g ++ t ∧ Gap g ∧ k = i + m ∧
              (∀ j, skipBlanksFrom j 0 (c :: s) = .ok (j + m)) ∧
              (m = g.length ∨ EndComment t ∧ m = l) := by
          rw [hs] at h hn ⊢
          rw [skipBlanksFrom_gap hg] at h
          have := List.length_pos_iff.2 hne
          obtain ⟨g', t, m, rfl, hg', rfl, hall, hend⟩ :=
            ih s'.length (by simp at hn; omega) h rfl
          refine ⟨g ++ g', t, g.length + m, by simp, hg.append hg', by omega, fun j => ?_, ?_⟩
          · rw [skipBlanksFrom_gap hg, hall]
            exact congrArg Except.ok (by omega)
          · refine hend.imp (fun h => by simp [h]) (fun h => ⟨h.1, ?_⟩)
            simp [← hn, h.2]
        by_cases hblank : isBlank c = true
        · exact later (g := [c]) rfl (.blank hblank .nil) (by simp)
        · rw [Bool.not_eq_true] at hblank
          have hstep := h
          rw [skipBlanksFrom, hblank] at hstep
          cases hcomment : comment? i c s with
          | none =>
              obtain rfl : i = k := by simpa [hcomment] using hstep
              have hnone (j : Nat) : comment? j c s = none :=
                comment?_eq_none_iff.2 (comment?_eq_none_iff.1 hcomment)
              exact ⟨[], c :: s, 0, rfl, .nil, rfl,
                fun j => by simp [skipBlanksFrom, hblank, hnone], .inl rfl⟩
          | some found =>
              rw [hcomment] at hstep
              obtain ⟨stop, rfl, -⟩ := bind_eq_ok_iff.1 hstep
              obtain ⟨a, r, hs, -, ha | ⟨rfl, ha⟩⟩ := comment?_cases hcomment
              · refine later (g := a) hs ?_ ?_
                · rw [← List.append_nil a]
                  exact .comment ha .nil
                · obtain ⟨b, rfl, -⟩ := ha.reads
                  simp
              · rw [List.append_nil] at hs
                rw [← hs] at ha
                have hall := ha.skipBlanksFrom
                rw [hn] at hall
                obtain rfl := Except.ok.inj ((hall i).symm.trans h)
                exact ⟨[], c :: s, l, rfl, .nil, rfl, hall, .inr ⟨ha, rfl⟩⟩

/-- A point belongs to the head if a name follows it. -/
theorem readHead_dot_cases {head found : HeadExtent} {tick : Option Nat}
    (h : readHead i head 0 ('.' :: s) = .ok (found, tick)) :
    (found = head ∧ tick = none ∧ Stops ('.' :: s)) ∨
      ∃ g name r, s = g ++ (name ++ r) ∧ Gap g ∧ IsName name ∧ Ends r.head? ∧
        readHead (i + ('.' :: (g ++ name)).length)
          ⟨head.ops + 1, false, i + ('.' :: (g ++ name)).length⟩ 0 r = .ok (found, tick) := by
  rw [readHead_dot] at h
  obtain ⟨q, hblanks, h⟩ := bind_eq_ok_iff.1 h
  obtain ⟨g, t, l, rfl, hg, rfl, hall, hend⟩ := exists_gap hblanks
  rw [Nat.add_sub_cancel_left] at h
  cases hname : nameLength? isAsciiNamePart ((g ++ t).drop l) with
  | none =>
      rw [hname, Option.elim_none] at h
      obtain ⟨rfl, rfl⟩ := Prod.mk.inj (Except.ok.inj h)
      refine .inl ⟨rfl, rfl, fun j head => ?_⟩
      rw [readHead_dot, hall]
      simp [bind, Except.bind, hname]
  | some length =>
      rw [hname, Option.elim_some] at h
      obtain rfl : l = g.length := by
        rcases hend with hl | ⟨-, hl⟩
        · exact hl
        · simp [hl, nameLength?] at hname
      rw [List.drop_left] at hname
      obtain ⟨name, r, rfl, rfl, hisName, hends⟩ := exists_name hname
      refine .inr ⟨g, name, r, rfl, hg, hisName, hends, ?_⟩
      rw [readHead_pending, show i + 1 + g.length + name.length - (i + 1) =
        g.length + name.length by omega, ← List.append_assoc, List.drop_left' (by simp)] at h
      convert h using 2 <;> simp <;> omega

theorem readHead_paren_cases {head found : HeadExtent} {tick : Option Nat}
    (h : readHead i head 0 ('(' :: s) = .ok (found, tick)) :
    ∃ b r, s = b ++ r ∧ Closes (.group ')') b ∧
      readHead (i + ('(' :: b).length) ⟨head.ops + 1, true, i + ('(' :: b).length⟩ 0 r =
        .ok (found, tick) := by
  rw [readHead_paren] at h
  obtain ⟨stop, hskip, h⟩ := bind_eq_ok_iff.1 h
  have hlow := le_of_skip hskip
  have hhigh := le_add_length_of_skip hskip
  obtain ⟨b, r, rfl, rfl⟩ : ∃ b r, s = b ++ r ∧ stop = i + 1 + b.length :=
    ⟨s.take (stop - (i + 1)), s.drop (stop - (i + 1)), by simp, by simp; omega⟩
  refine ⟨b, r, rfl, closes_of_skip hskip (.inr (by simp)), ?_⟩
  rw [readHead_pending, Nat.add_sub_cancel_left, List.drop_left] at h
  convert h using 2 <;> simp <;> omega

/-- The text, from `i` on, is the rest of a head that had so many operations before it and ended at
`k`, and what follows the head. -/
def EndsHead (found : HeadExtent) (tick : Option Nat) (n : Nat) (e : Bool) (k i : Nat)
    (s : List Char) : Prop :=
  ∃ a r backtick, s = a ++ r ∧ Ops r.head? n e a found.ops found.endsInCall ∧
    found.stop = (if a = [] then k else i + a.length) ∧
    tick = backtick.map (i + a.length + ·) ∧ Follows r backtick

section EndsHead

variable {found : HeadExtent} {tick : Option Nat} {p : List Char}

theorem EndsHead.idle {backtick : Option Nat} (hfollows : Follows s backtick)
    (hfound : found = ⟨n, e, k⟩) (htick : tick = backtick.map (i + ·)) :
    EndsHead found tick n e k i s := by
  subst hfound
  exact ⟨[], s, backtick, rfl, .nil n e, rfl, htick, hfollows⟩

theorem EndsHead.gap (h : EndsHead found tick n e k (i + g.length) s) (hg : Gap g) :
    EndsHead found tick n e k i (g ++ s) := by
  obtain ⟨a, r, backtick, rfl, hops, hstop, htick, hfollows⟩ := h
  by_cases ha : a = []
  · subst ha
    refine ⟨[], g ++ r, backtick.map (g.length + ·), by simp, ?_, by simpa using hstop, ?_,
      hfollows.gap hg⟩
    · obtain ⟨hsame, hcall⟩ := hops.eq_of_nil
      rw [hsame, hcall]
      exact .nil _ _
    · cases backtick <;> simp_all [Nat.add_assoc]
  · refine ⟨g ++ a, r, backtick, by simp, hops.gap hg ha, ?_, ?_, hfollows⟩
    · simp [hstop, ha, Nat.add_assoc]
    · cases backtick <;> simp_all [Nat.add_assoc]

theorem EndsHead.after (h : EndsHead found tick (n + 1) e' (i + p.length) (i + p.length) s) (hp : p ≠ [])
    (hop : ∀ a r, s = a ++ r → Ops r.head? (n + 1) e' a found.ops found.endsInCall →
      Ops r.head? n e (p ++ a) found.ops found.endsInCall) :
    EndsHead found tick n e k i (p ++ s) := by
  obtain ⟨a, r, backtick, rfl, hops, hstop, htick, hfollows⟩ := h
  refine ⟨p ++ a, r, backtick, by simp, hop a r rfl hops, ?_, ?_, hfollows⟩
  · by_cases ha : a = [] <;> simp_all [Nat.add_assoc]
  · cases backtick <;> simp_all [Nat.add_assoc]

/-- A head that can be read is a sequence of member accesses and calls, and what follows them
does not belong to it. -/
theorem endsHead_of_readHead (h : readHead i ⟨n, e, k⟩ 0 s = .ok (found, tick)) :
    EndsHead found tick n e k i s := by
  -- on the length, since a comment or a group is read in one step
  induction hn : s.length using Nat.strongRecOn generalizing s i k n e with
  | _ m ih =>
    cases s with
    | nil =>
        obtain ⟨rfl, rfl⟩ := Prod.mk.inj (Except.ok.inj h)
        exact .idle (.inl ⟨rfl, .nil⟩) rfl rfl
    | cons c s =>
        have later {g s' : List Char} (hs : c :: s = g ++ s') (hg : Gap g) (hne : g ≠ []) :
            EndsHead found tick n e k i (c :: s) := by
          rw [hs] at h hn ⊢
          rw [readHead_gap hg] at h
          have := List.length_pos_iff.2 hne
          exact (ih s'.length (by simp at hn; omega) h rfl).gap hg
        have hstep := h
        rw [readHead] at hstep
        by_cases hblank : isBlank c = true
        · exact later (g := [c]) rfl (.blank hblank .nil) (by simp)
        rw [if_neg hblank] at hstep
        cases hcomment : comment? i c s with
        | some found =>
            rw [hcomment] at hstep
            obtain ⟨stop, rfl, -⟩ := bind_eq_ok_iff.1 hstep
            obtain ⟨a, r, hs, -, ha | ⟨rfl, ha⟩⟩ := comment?_cases hcomment
            · refine later (g := a) hs ?_ ?_
              · rw [← List.append_nil a]
                exact .comment ha .nil
              · obtain ⟨b, rfl, -⟩ := ha.reads
                simp
            · rw [List.append_nil] at hs
              rw [← hs] at ha
              obtain ⟨rfl, rfl⟩ := Prod.mk.inj (Except.ok.inj ((ha.stops i _).symm.trans h))
              exact .idle (.inl ⟨rfl, ha.stops⟩) rfl rfl
        | none =>
            simp only [hcomment] at hstep
            split_ifs at hstep with htick hdot hparen
            · obtain ⟨rfl, rfl⟩ := Prod.mk.inj (Except.ok.inj hstep)
              have hfollows : Follows (c :: s) (some 0) := .inr ⟨[], s, by simp [htick], .nil, rfl⟩
              exact .idle hfollows rfl rfl
            · subst hdot
              obtain ⟨rfl, rfl, hstops⟩ | ⟨g, name, r, rfl, hg, hname, hends, h⟩ := readHead_dot_cases h
              · exact .idle (.inl ⟨rfl, hstops⟩) rfl rfl
              · have hlater := ih r.length (by simp [← hn]; omega) h rfl
                have hall := hlater.after (e := e) (k := k) (by simp) fun a r' hr hops => by
                  rw [hr, List.head?_append] at hends
                  simpa using Ops.member (e := e) .nil hg hname hends hops
                simpa using hall
            · subst hparen
              obtain ⟨b, r, rfl, hb, h⟩ := readHead_paren_cases h
              have hlater := ih r.length (by simp only [← hn, List.length_cons, List.length_append]; omega) h rfl
              have hall := hlater.after (e := e) (k := k) (by simp) fun a r' _ hops => by
                simpa using Ops.call (e := e) .nil hb hops
              simpa using hall
            · obtain ⟨rfl, rfl⟩ := Prod.mk.inj (Except.ok.inj hstep)
              refine .idle (.inl ⟨rfl, fun j head => ?_⟩) rfl rfl
              have hnone : comment? j c s = none :=
                comment?_eq_none_iff.2 (comment?_eq_none_iff.1 hcomment)
              simp [readHead, hblank, hnone, htick, hdot, hparen]

end EndsHead

theorem exists_ops {found : HeadExtent} {tick : Option Nat}
    (h : readHead i ⟨n, e, i⟩ 0 s = .ok (found, tick)) :
    ∃ a r backtick, s = a ++ r ∧ Ops r.head? n e a found.ops found.endsInCall ∧
      found.stop = i + a.length ∧ tick = backtick.map (i + a.length + ·) ∧ Follows r backtick := by
  obtain ⟨a, r, backtick, hs, hops, hstop, hrest⟩ := endsHead_of_readHead h
  refine ⟨a, r, backtick, hs, hops, ?_, hrest⟩
  split_ifs at hstop with ha
  · simp [hstop, ha]
  · exact hstop

end CssExtract.Script
