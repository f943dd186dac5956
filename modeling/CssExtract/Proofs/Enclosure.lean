import CssExtract.Proofs.Declarations
import CssExtract.Proofs.ScanBounds

namespace CssExtract.Script

open Text

def Frame.kind : Frame → Frame
  | .blockComment _ => .blockComment 0
  | frame => frame

variable {f g : Frame} {F G : List Frame} {c : Char} {next next' : Option Char} {i k width : Nat}
  {opened : List Frame} {a b r : List Char}

theorem opens?_shift {i : Nat} (h : opens? i c next = some (width, f)) (k : Nat) :
    ∃ g, opens? k c next = some (width, g) ∧ g.kind = f.kind := by
  simp only [opens?_eq_some_iff] at h ⊢
  cases h with
  | string hquote => exact ⟨_, .string hquote, rfl⟩
  | template htick => exact ⟨_, .template htick, rfl⟩
  | lineComment hfirst hsecond => exact ⟨_, .lineComment hfirst hsecond, rfl⟩
  | blockComment hfirst hsecond => exact ⟨_, .blockComment hfirst hsecond, rfl⟩

theorem opens?_eq_none_shift (h : opens? i c next = none) (k : Nat) : opens? k c next = none := by
  cases hk : opens? k c next with
  | none => rfl
  | some opened =>
      obtain ⟨g, hg, -⟩ := opens?_shift hk i
      simp [h] at hg

theorem Frame.eq_of_kind (h : g.kind = f.kind) :
    g = f ∨ ∃ i j, f = .blockComment i ∧ g = .blockComment j := by
  cases f <;> cases g <;> simp_all [kind]

theorem Frame.Moves.shift (h : Moves i c next f width opened) (hkind : g.kind = f.kind)
    (k : Nat) :
    ∃ opened', Moves k c next g width opened' ∧ opened'.map kind = opened.map kind := by
  obtain rfl | ⟨start, start', rfl, rfl⟩ := eq_of_kind hkind
  · cases g with
    | group closer =>
        cases h with
        | groupOpens hopens =>
            obtain ⟨inner, hinner, hsame⟩ := opens?_shift (opens?_eq_some_iff.2 hopens) k
            exact ⟨_, .groupOpens (opens?_eq_some_iff.1 hinner), by simp [hsame]⟩
        | groupNested hopener => exact ⟨_, .groupNested hopener, rfl⟩
        | groupEnd hcloser => exact ⟨_, .groupEnd hcloser, rfl⟩
        | groupChar hopens hopener hplain =>
            exact ⟨_, .groupChar (opens?_eq_none_shift hopens k) hopener hplain, rfl⟩
    -- the other moves do not look at the offset
    | _ =>
        have hmove := move_eq_ok_iff.2 h
        exact ⟨opened, move_eq_ok_iff.1 hmove, rfl⟩
  · cases h with
    | blockEnd hstar hslash => exact ⟨_, .blockEnd hstar hslash, rfl⟩
    | blockChar hstays => exact ⟨_, .blockChar hstays, rfl⟩

theorem Frame.Moves.closing (h : Moves i c next f 1 []) (hkind : g.kind = f.kind) (k : Nat)
    (next' : Option Char) : Moves k c next' g 1 [] := by
  obtain rfl | ⟨start, start', rfl, rfl⟩ := eq_of_kind hkind
  · cases h with
    | stringEnd hescape => exact .stringEnd hescape
    | templateEnd htick => exact .templateEnd htick
    | lineEnd hline => exact .lineEnd hline
    | groupEnd hcloser => exact .groupEnd hcloser
  · cases h

theorem Frame.Moves.getLast? (h : Moves i c next f width opened) :
    opened ++ F = [] ∨ (opened ++ F).getLast? = (f :: F).getLast? := by
  cases F with
  | nil =>
      obtain ⟨rfl, -⟩ | ⟨upper, rfl⟩ := h.ends
      · exact .inl rfl
      · exact .inr (by simp)
  | cons f' F => exact .inr (by simp [List.getLast?_append, List.getLast?_cons])

theorem eq_nil_of_skip_eq (h : skip i F r = .ok i) (hend : r ≠ [] ∨ F.getLast? ≠ some .lineComment) :
    F = [] := by
  cases r with
  | cons c r =>
      cases F with
      | nil => rfl
      | cons f F => exact absurd (lt_of_skip h) (Nat.lt_irrefl i)
  | nil =>
      rcases List.eq_nil_or_concat F with rfl | ⟨F, f, rfl⟩
      · rfl
      · rw [skip_nil, List.concat_eq_append] at h
        have := eq_lineComment_of_atEnd h
        simp_all

/-- A move before a text that closes what is open is made whatever follows that text. -/
theorem Frame.Moves.before (hmove : Moves i c (a ++ r).head? f 1 opened) (hkind : g.kind = f.kind)
    (hrest : skip (i + 1) (opened ++ F) (a ++ r) = .ok (i + 1 + a.length))
    (hend : r ≠ [] ∨ (opened ++ F).getLast? ≠ some .lineComment) (k : Nat) :
    ∃ opened', opened'.map kind = opened.map kind ∧
      ∀ s : List Char, Moves k c (a ++ s).head? g 1 opened' := by
  cases a with
  | nil =>
      obtain ⟨rfl, rfl⟩ := List.append_eq_nil_iff.1 (eq_nil_of_skip_eq hrest hend)
      exact ⟨[], rfl, fun s => hmove.closing hkind k _⟩
  | cons d a =>
      obtain ⟨opened', hmove', hopened⟩ := hmove.shift hkind k
      exact ⟨opened', hopened, fun _ => hmove'⟩

/-- A text that is read to its end, with nothing left open, is read alike in every place and
whatever follows it there. -/
theorem skip_stable (h : skip i F (a ++ r) = .ok (i + a.length))
    (hend : r ≠ [] ∨ F.getLast? ≠ some .lineComment) (hkind : G.map Frame.kind = F.map Frame.kind)
    (k : Nat) (s : List Char) : skip k G (a ++ s) = .ok (k + a.length) := by
  induction hn : a.length using Nat.strongRecOn generalizing i k a F G with
  | _ n ih =>
    cases a with
    | nil =>
        obtain rfl := eq_nil_of_skip_eq h hend
        obtain rfl : G = [] := by simpa using hkind
        simp [skip, ← hn]
    | cons c a =>
        cases F with
        | nil => simp [skip] at h
        | cons f F =>
            obtain ⟨g, G, rfl⟩ : ∃ g G', G = g :: G' := by
              cases G with
              | nil => simp at hkind
              | cons g G => exact ⟨g, G, rfl⟩
            obtain ⟨hg, hG⟩ := List.cons.inj hkind
            -- what is left open after a move is read on alike
            have bottom {width : Nat} {opened : List Frame} {next : Option Char}
                (hmove : Frame.Moves i c next f width opened) :
                r ≠ [] ∨ (opened ++ F).getLast? ≠ some .lineComment := by
              rcases hmove.getLast? (F := F) with hnil | hlast
              · exact .inr (by simp [hnil])
              · rwa [hlast]
            rw [List.cons_append] at h ⊢
            obtain ⟨opened, hmove, hrest⟩ | ⟨opened, d, t, ht, hmove, hrest⟩ := skip_cases h
            · replace hrest : skip (i + 1) (opened ++ F) (a ++ r) = .ok (i + 1 + a.length) := by
                simpa [Nat.add_assoc, Nat.add_comm 1] using hrest
              obtain ⟨opened', hopened, hmove'⟩ := hmove.before hg hrest (bottom hmove) k
              rw [skip_move (hmove' s), ih a.length (by simp [← hn]) hrest (bottom hmove)
                (by simp [hopened, hG]) (k + 1) rfl]
              exact congrArg Except.ok (by simp [← hn]; omega)
            · cases a with
              | nil =>
                  have := le_of_skip hrest
                  simp at this
              | cons e a =>
                  obtain ⟨rfl, rfl⟩ := List.cons.inj ht
                  replace hrest : skip (i + 2) (opened ++ F) (a ++ r) = .ok (i + 2 + a.length) := by
                    simpa [Nat.add_assoc, Nat.add_comm 2] using hrest
                  obtain ⟨opened', hmove', hopened⟩ := hmove.shift hg k
                  have hlt : a.length < n := by
                    simp only [← hn, List.length_cons]
                    omega
                  rw [List.cons_append, skip_move_two hmove', ih a.length hlt hrest (bottom hmove)
                    (by simp [hopened, hG]) (k + 2) rfl]
                  exact congrArg Except.ok (by simp [← hn]; omega)

/-- The text is what is left of an open part, its closer at its end, in every place and whatever
follows it there. -/
def Closes (f : Frame) (a : List Char) : Prop :=
  ∀ (i : Nat) (g : Frame) (r : List Char), g.kind = f.kind → skip i [g] (a ++ r) = .ok (i + a.length)

theorem closes_of_skip (h : skip i [f] (a ++ r) = .ok (i + a.length))
    (hend : r ≠ [] ∨ f ≠ .lineComment) : Closes f a :=
  fun k g s hkind => skip_stable h (by simpa using hend) (by simpa using hkind) k s

theorem Closes.skip (h : Closes f a) (hkind : g.kind = f.kind) (i : Nat) (F : List Frame)
    (r : List Char) : Script.skip i (g :: F) (a ++ r) = Script.skip (i + a.length) F r := by
  rw [← List.singleton_append, skip_append, h i g r hkind]
  simp [Except.bind]

/-- The text leaves every group that it stands in open, with nothing new open in it. -/
def Neutral (a : List Char) : Prop :=
  ∀ (i : Nat) (closer : Char) (F : List Frame) (r : List Char),
    skip i (.group closer :: F) (a ++ r) = skip (i + a.length) (.group closer :: F) r

namespace Neutral

theorem nil : Neutral [] := fun i closer F r => by simp

theorem append (ha : Neutral a) (hb : Neutral b) : Neutral (a ++ b) := fun i closer F r => by
  rw [List.append_assoc, ha, hb, List.length_append, Nat.add_assoc]

theorem of_inert (hc : isInert c = true) : Neutral [c] := fun i closer F r => by
  simp only [isInert, Bool.and_eq_true, Option.isNone_iff_eq_none] at hc
  obtain ⟨⟨hplain, hopen⟩, hclose⟩ := hc
  rw [List.singleton_append,
    skip_move (.groupChar (opens?_of_plain hplain _ _) hopen (by simpa using hclose))]
  rfl

theorem of_all_inert (h : ∀ c ∈ a, isInert c = true) : Neutral a := by
  induction a with
  | nil => exact nil
  | cons c a ih =>
      obtain ⟨hc, ha⟩ := List.forall_mem_cons.1 h
      exact (of_inert hc).append (ih ha)

theorem group {o closer : Char} (ho : closerOf? o = some closer) (h : Closes (.group closer) a) :
    Neutral (o :: a) := fun i outer F r => by
  rw [List.cons_append, skip_move (.groupNested ho)]
  simp [h.skip rfl, Nat.add_comm, Nat.add_left_comm]

theorem closes (h : Neutral a) {closer : Char} (hcloser : isCloser closer = true) :
    Closes (.group closer) (a ++ [closer]) := fun i g r hkind => by
  obtain rfl : g = .group closer := by cases g <;> simp_all [Frame.kind]
  rw [List.append_assoc, h, List.singleton_append, skip_move (.groupEnd hcloser)]
  simp [Script.skip, Nat.add_assoc]

theorem closes_append {closer : Char} (ha : Neutral a) (hb : Closes (.group closer) b) :
    Closes (.group closer) (a ++ b) := fun i g r hkind => by
  obtain rfl : g = .group closer := by cases g <;> simp_all [Frame.kind]
  rw [List.append_assoc, ha, hb _ _ _ rfl, List.length_append, Nat.add_assoc]

end Neutral

/-- A whole comment. -/
inductive Comment : List Char → Prop
  | line {a : List Char} (h : Closes .lineComment a) : Comment ('/' :: '/' :: a)
  | block {a : List Char} (h : Closes (.blockComment 0) a) : Comment ('/' :: '*' :: a)

inductive Part : List Char → Prop
  | string {q : Char} {a : List Char} (hq : isQuote q = true) (h : Closes (.string q) a) : Part (q :: a)
  | template {a : List Char} (h : Closes .template a) : Part ('`' :: a)
  | comment {a : List Char} (h : Comment a) : Part a

theorem opens?_quote {q : Char} (hq : isQuote q = true) (i : Nat) (next : Option Char) :
    opens? i q next = some (1, .string q) := by
  simp only [isQuote] at hq
  simp [opens?, hq]

theorem opens?_tick (i : Nat) (next : Option Char) : opens? i '`' next = some (1, .template) := by
  simp [opens?]

theorem Part.reads (h : Part a) (i : Nat) (r : List Char) :
    ∃ c b width frame, a = c :: b ∧ opens? i c (b ++ r).head? = some (width, frame) ∧
      (width = 1 ∨ width = 2) ∧
      skip (i + width) [frame] ((b ++ r).drop (width - 1)) = .ok (i + a.length) := by
  cases h with
  | @string q a hq h =>
      refine ⟨q, a, 1, _, rfl, opens?_quote hq _ _, .inl rfl, ?_⟩
      rw [Nat.sub_self, List.drop_zero, h _ _ _ rfl, List.length_cons]
      exact congrArg Except.ok (by omega)
  | @template a h =>
      refine ⟨'`', a, 1, _, rfl, opens?_tick _ _, .inl rfl, ?_⟩
      rw [Nat.sub_self, List.drop_zero, h _ _ _ rfl, List.length_cons]
      exact congrArg Except.ok (by omega)
  | comment h =>
      cases h with
      | @line a h =>
          refine ⟨'/', '/' :: a, 2, .lineComment, rfl, by simp [opens?], .inr rfl, ?_⟩
          rw [List.cons_append, Nat.add_one_sub_one, List.drop_one, List.tail_cons,
            h (i + 2) .lineComment r rfl]
          exact congrArg Except.ok (by simp; omega)
      | @block a h =>
          refine ⟨'/', '*' :: a, 2, .blockComment i, rfl, by simp [opens?], .inr rfl, ?_⟩
          rw [List.cons_append, Nat.add_one_sub_one, List.drop_one, List.tail_cons,
            h (i + 2) (.blockComment i) r rfl]
          exact congrArg Except.ok (by simp; omega)

theorem Part.neutral (h : Part a) : Neutral a := fun i closer F r => by
  obtain ⟨c, b, width, frame, rfl, hopens, hwidth, hskip⟩ := h.reads i r
  rw [List.cons_append, skip_cons]
  simp only [Frame.move, hopens, List.cons_append, List.nil_append]
  have hrest : skip (i + width) (frame :: .group closer :: F) ((b ++ r).drop (width - 1)) =
      skip (i + (c :: b).length) (.group closer :: F) r := by
    rw [← List.singleton_append, skip_append, hskip]
    simp only [Except.bind, List.length_cons]
    have hle := le_of_skip hskip
    simp only [List.length_cons] at hle
    rw [List.drop_drop, show width - 1 + (i + (b.length + 1) - (i + width)) = b.length by omega,
      List.drop_left]
  rcases hwidth with rfl | rfl
  · simpa using hrest
  · simpa using hrest

def EndComment (a : List Char) : Prop :=
  ∃ b, a = '/' :: '/' :: b ∧ ∀ i, skip i [.lineComment] b = .ok (i + b.length)

theorem exists_skip_lineComment (b : List Char) :
    ∃ n, ∀ i, skip i [.lineComment] b = .ok (i + n) := by
  induction b with
  | nil => exact ⟨0, fun i => by simp [skip, atEnd]⟩
  | cons c b ih =>
      by_cases hc : c = '\n'
      · exact ⟨1, fun i => by simp [skip_move (.lineEnd hc), skip]⟩
      · obtain ⟨n, hn⟩ := ih
        refine ⟨n + 1, fun i => ?_⟩
        rw [skip_move (.lineChar hc), List.append_nil, hn]
        exact congrArg Except.ok (by omega)

/-- What opens at the front of a text is a whole part, or a line comment that the text ends in. -/
theorem part_cases {s : List Char} {stop : Nat} (hopens : opens? i c s.head? = some (width, f))
    (h : skip (i + width) [f] (s.drop (width - 1)) = .ok stop) :
    ∃ a r, c :: s = a ++ r ∧ stop = i + a.length ∧ (Part a ∨ r = [] ∧ EndComment a) := by
  have hlow := le_of_skip h
  have hhigh := le_add_length_of_skip h
  -- the text that is read once the part is open
  have cut {t : List Char} (hlow : i + width ≤ stop) (hhigh : stop ≤ i + width + t.length) :
      ∃ b r, t = b ++ r ∧ stop = i + width + b.length :=
    ⟨t.take (stop - (i + width)), t.drop (stop - (i + width)), by simp, by simp; omega⟩
  cases opens?_eq_some_iff.1 hopens with
  | string hquote =>
      obtain ⟨b, r, rfl, rfl⟩ := cut hlow hhigh
      refine ⟨c :: b, r, rfl, by simp; omega, .inl (.string ?_ (closes_of_skip h (.inr (by simp))))⟩
      simpa [isQuote] using hquote
  | template htick =>
      obtain ⟨b, r, rfl, rfl⟩ := cut hlow hhigh
      subst htick
      exact ⟨'`' :: b, r, rfl, by simp; omega, .inl (.template (closes_of_skip h (.inr (by simp))))⟩
  | lineComment hfirst hsecond =>
      subst hfirst
      obtain ⟨t, rfl⟩ := List.head?_eq_some_iff.1 hsecond
      obtain ⟨b, r, rfl, rfl⟩ := cut (t := t) hlow (by simpa using hhigh)
      refine ⟨'/' :: '/' :: b, r, rfl, by simp; omega, ?_⟩
      cases r with
      | cons d r => exact .inl (.comment (.line (closes_of_skip h (.inl (by simp)))))
      | nil =>
          obtain ⟨n, hn⟩ := exists_skip_lineComment b
          have hb : skip (i + 2) [.lineComment] b = .ok (i + 2 + b.length) := by simpa using h
          have : n = b.length := by
            rw [hn] at hb
            have := Except.ok.inj hb
            omega
          exact .inr ⟨rfl, b, rfl, fun k => this ▸ hn k⟩
  | blockComment hfirst hsecond =>
      subst hfirst
      obtain ⟨t, rfl⟩ := List.head?_eq_some_iff.1 hsecond
      obtain ⟨b, r, rfl, rfl⟩ := cut (t := t) hlow (by simpa using hhigh)
      refine ⟨'/' :: '*' :: b, r, rfl, by simp; omega, .inl (.comment (.block fun k g s hkind => ?_))⟩
      exact closes_of_skip h (.inr (by simp)) k g s hkind

end CssExtract.Script
