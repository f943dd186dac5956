import CssExtract.Proofs.Barrier
import Mathlib.Data.List.TakeWhile

namespace CssExtract.Script

open Text

/-- The texts differ in nothing but comments and templates; the first of those they may differ in
comes after `n` characters. -/
inductive Rewritten : Nat → List Char → List Char → Prop
  | refl (s : List Char) : Rewritten s.length s s
  | code {n : Nat} {c : Char} {s s' : List Char} (h : opens? 0 c s.head? = none)
      (h' : opens? 0 c s'.head? = none) : Rewritten n s s' → Rewritten (n + 1) (c :: s) (c :: s')
  | string {n : Nat} {q : Char} {a s s' : List Char} (h : part? (a ++ s) = some (.string q, a.length))
      (h' : part? (a ++ s') = some (.string q, a.length)) :
      Rewritten n s s' → Rewritten (a.length + n) (a ++ s) (a ++ s')
  | part {n : Nat} {frame : Frame} {a b s s' : List Char} (hframe : ∀ q, frame ≠ .string q)
      (h : part? (a ++ s) = some (frame, a.length)) (h' : part? (b ++ s') = some (frame, b.length)) :
      Rewritten n s s' → Rewritten 0 (a ++ s) (b ++ s')

def SameCode (s s' : List Char) : Prop := ∃ n, Rewritten n s s'

variable {frame : Frame} {a s s' t : List Char} {n : Nat} {x : Char}

theorem opens?_eq_string {i width : Nat} {c q : Char} {next : Option Char}
    (h : opens? i c next = some (width, .string q)) : width = 1 ∧ c = q ∧ isQuote q = true := by
  cases opens?_eq_some_iff.1 h with
  | string hquote => exact ⟨rfl, rfl, by simpa [isQuote] using hquote⟩

theorem opens?_of_plain {c : Char} (h : isPlain c = true) (i : Nat) (next : Option Char) :
    opens? i c next = none := by
  simp only [isPlain, isQuote, Bool.and_eq_true, Bool.not_eq_true', decide_eq_true_eq] at h
  simp [opens?, h.1.1, h.1.2, h.2]

theorem isBarrier_opening (h : part? (a ++ s) = some (frame, a.length))
    (hframe : ∀ q, frame ≠ .string q) : IsBarrier frame.opening := by
  obtain ⟨body, rfl⟩ := exists_cons_of_part? h
  rw [List.cons_append] at h
  obtain ⟨width, hopens, -⟩ := part?_eq_some_iff.1 h
  generalize frame.opening = c at hopens ⊢
  cases opens?_eq_some_iff.1 hopens with
  | string => exact absurd rfl (hframe c)
  | template htick => exact .inr htick
  | lineComment hfirst => exact .inl hfirst
  | blockComment hfirst => exact .inl hfirst

namespace Rewritten

theorem eq_or_barrier (h : Rewritten n s s') :
    s = s' ∨ ∃ t x w w', IsBarrier x ∧ Closed t ∧ t.length = n ∧ s = t ++ x :: w ∧
      s' = t ++ x :: w' := by
  induction h with
  | refl s => exact .inl rfl
  | @code n c s s' hopens _ _ ih =>
      refine ih.imp (congrArg (c :: ·)) ?_
      rintro ⟨t, x, w, w', hx, ht, hn, rfl, rfl⟩
      have hquote : isQuote c = false := by simpa [isQuote] using (opens?_eq_none_iff.1 hopens).1
      exact ⟨c :: t, x, w, w', hx, .code hquote ht, by simp [hn], rfl, rfl⟩
  | @string n q a s s' hpart _ _ ih =>
      refine ih.imp (congrArg (a ++ ·)) ?_
      rintro ⟨t, x, w, w', hx, ht, hn, rfl, rfl⟩
      obtain ⟨body, rfl⟩ := exists_cons_of_part? hpart
      rw [List.cons_append] at hpart
      obtain ⟨width, hopens, hskip⟩ := part?_eq_some_iff.1 hpart
      obtain ⟨rfl, -, hq⟩ := opens?_eq_string hopens
      refine ⟨q :: (body ++ t), x, w, w', hx, .string hq (hskip.trans ?_) ht, ?_, ?_, ?_⟩
      · rw [List.length_cons, Nat.add_comm]
      · simp only [List.length_cons, List.length_append, hn]
        omega
      · simp [Frame.opening]
      · simp [Frame.opening]
  | @part n frame a b s s' hframe hpart hpart' _ _ =>
      obtain ⟨body, rfl⟩ := exists_cons_of_part? hpart
      obtain ⟨body', rfl⟩ := exists_cons_of_part? hpart'
      exact .inr ⟨[], frame.opening, body ++ s, body' ++ s', isBarrier_opening hpart hframe, .nil,
        rfl, rfl, rfl⟩

theorem append_plain {p : List Char} (hp : ∀ c ∈ p, isPlain c = true) (h : Rewritten n s s') :
    Rewritten (p.length + n) (p ++ s) (p ++ s') := by
  induction p with
  | nil => simpa using h
  | cons c p ih =>
      obtain ⟨hc, hp⟩ := List.forall_mem_cons.1 hp
      rw [List.length_cons, Nat.add_right_comm]
      exact .code (opens?_of_plain hc _ _) (opens?_of_plain hc _ _) (ih hp)

theorem eq_nil_iff (h : Rewritten n s s') : s = [] ↔ s' = [] := by
  cases h with
  | refl => rfl
  | code => simp
  | string hpart _ _ =>
      obtain ⟨body, rfl⟩ := exists_cons_of_part? hpart
      simp
  | part _ hpart hpart' _ =>
      obtain ⟨body, rfl⟩ := exists_cons_of_part? hpart
      obtain ⟨body', rfl⟩ := exists_cons_of_part? hpart'
      simp

end Rewritten

def declares (previous : Option Char) (s : List Char) : Bool :=
  !previous.any isWord &&
    (((after? "import".toList s).bind someBlanks?).isSome ||
      ((declarator? s).bind someBlanks?).isSome)

def declaresLine (previous : Option Char) (s : List Char) : Bool :=
  previous.all (· = '\n') && ((declarator? (declarationIn s)).bind someBlanks?).isSome

variable {α : Type} {recognise : Option Char → List Char → Option (α × Nat)} {plain : List Char → Bool}

/-- What is recognised in front of a barrier, and is plain, does not depend on what is behind it. -/
def Settles (recognise : Option Char → List Char → Option (α × Nat)) (plain : List Char → Bool) : Prop :=
  ∀ {x : Char} {t w : List Char} {previous : Option Char} {result : α × Nat}, IsBarrier x →
    Closed t → recognise previous (t ++ x :: w) = some result → plain (t ++ x :: w) = true →
      result.2 ≤ t.length ∧ ∀ w', recognise previous (t ++ x :: w') = some result

theorem import?_le {previous : Option Char} {result : (List Char × List Char) × Nat}
    (h : import? previous t = some result) : result.2 ≤ t.length := by
  simp only [import?, bind, Option.bind_eq_some_iff, Option.some.injEq] at h
  obtain ⟨_, -, _, -, _, -, rfl⟩ := h
  exact matched_snd_le _ _

theorem require?_le {previous : Option Char} {result : (List Char × List Char) × Nat}
    (h : require? previous t = some result) : result.2 ≤ t.length := by
  simp only [require?, bind, Option.bind_eq_some_iff, Option.some.injEq] at h
  obtain ⟨_, -, _, -, _, -, _, -, _, -, _, -, _, -, _, -, rfl⟩ := h
  exact matched_snd_le _ _

theorem import?_settles : Settles import? fun _ => true := by
  intro x t w previous result hx ht h _
  rw [import?_barrier hx ht] at h
  exact ⟨import?_le h, fun w' => by rw [import?_barrier hx ht, h]⟩

theorem require?_settles : Settles require? plainPattern := by
  intro x t w previous result hx ht h hplain
  rw [require?_barrier hx ht previous w hplain] at h
  exact ⟨require?_le h, fun w' => by
    rw [require?_barrier hx ht previous w' (plainPattern_barrier hx hplain w'), h]⟩

theorem constant?_settles : Settles constant? fun _ => true := by
  intro x t w previous result hx ht h _
  obtain ⟨found, hle, hfound⟩ := constant?_barrier hx ht previous
  rw [hfound] at h
  exact ⟨hle result h, fun w' => by rw [hfound, h]⟩

/-- Whatever is recognised in a text starts in code, and is plain. -/
def InCode (recognise : Option Char → List Char → Option (α × Nat)) (plain : List Char → Bool)
    (previous : Option Char) (depth : Nat) (s : List Char) : Prop :=
  ∀ p t, s = p ++ t → (recognise (p.getLast?.or previous) t).isSome = true →
    plain t = true ∧ ∃ d, (depthsFrom 0 depth s)[p.length]? = some (some d)

theorem getLast?_append_or (p q : List Char) (previous : Option Char) :
    (p ++ q).getLast?.or previous = q.getLast?.or (p.getLast?.or previous) := by
  rw [List.getLast?_append, Option.or_assoc]

theorem getLast?_cons_or (c : Char) (p : List Char) (previous : Option Char) :
    (c :: p).getLast?.or previous = p.getLast?.or (some c) := getLast?_append_or [c] p previous

namespace InCode

variable {previous : Option Char} {depth : Nat} {c : Char}

theorem tail (h : InCode recognise plain previous depth (c :: s))
    (hopens : opens? 0 c s.head? = none) : InCode recognise plain (some c) (bracketed depth c) s := by
  intro p t hs hsome
  rw [← getLast?_cons_or c p previous] at hsome
  obtain ⟨hplain, d, hd⟩ := h (c :: p) t (congrArg (c :: ·) hs) hsome
  rw [depthsFrom, hopens] at hd
  exact ⟨hplain, d, hd⟩

theorem drop (h : InCode recognise plain previous depth (a ++ s))
    (hpart : part? (a ++ s) = some (frame, a.length)) :
    InCode recognise plain (a.getLast?.or previous) depth s := by
  rintro p t rfl hsome
  rw [← getLast?_append_or] at hsome
  obtain ⟨hplain, d, hd⟩ := h (a ++ p) t (List.append_assoc _ _ _).symm hsome
  rw [depthsFrom_part hpart, List.length_append,
    List.getElem?_append_right (by simp), List.length_replicate, Nat.add_sub_cancel_left] at hd
  exact ⟨hplain, d, hd⟩

theorem eq_none (h : InCode recognise plain previous depth (a ++ s))
    (hpart : part? (a ++ s) = some (frame, a.length)) {p q : List Char} (ha : a = p ++ q)
    (hq : q ≠ []) : recognise (p.getLast?.or previous) (q ++ s) = none := by
  cases hfound : recognise (p.getLast?.or previous) (q ++ s) with
  | none => rfl
  | some found =>
      obtain ⟨-, d, hd⟩ := h p (q ++ s) (by rw [ha, List.append_assoc]) (by rw [hfound]; rfl)
      have hlt : p.length < a.length := by
        have := List.length_pos_iff.2 hq
        rw [ha, List.length_append]
        omega
      rw [depthsFrom_part hpart, List.getElem?_append_left (by simpa using hlt)] at hd
      simp [hlt] at hd

theorem settled (h : InCode recognise plain previous depth s) (hsettles : Settles recognise plain)
    {t w w' : List Char} {result : α × Nat} (hx : IsBarrier x) (ht : Closed t)
    (hs : s = t ++ x :: w) (hfound : recognise previous s = some result) :
    result.2 ≤ t.length ∧ recognise previous (t ++ x :: w') = some result := by
  have hplain : plain s = true := (h [] s rfl (by simp [hfound])).1
  rw [hs] at hfound hplain
  obtain ⟨hle, hother⟩ := hsettles hx ht hfound hplain
  exact ⟨hle, hother w'⟩

end InCode

theorem matchesFrom_append {previous : Option Char} (pending : Nat)
    (h : ∀ p q, a = p ++ q → q ≠ [] → recognise (p.getLast?.or previous) (q ++ s) = none) :
    matchesFrom recognise previous pending (a ++ s) =
      matchesFrom recognise (a.getLast?.or previous) (pending - a.length) s := by
  induction a generalizing previous pending with
  | nil => simp
  | cons c a ih =>
      have hrest (pending : Nat) := ih pending fun p q ha hq => by
        rw [← getLast?_cons_or c p previous]
        exact h (c :: p) q (congrArg (c :: ·) ha) hq
      rw [getLast?_cons_or, List.length_cons, List.cons_append]
      cases pending with
      | zero =>
          have hnone : recognise previous (c :: (a ++ s)) = none := h [] (c :: a) rfl (by simp)
          rw [matchesFrom, hnone]
          simpa using hrest 0
      | succ pending =>
          rw [matchesFrom, hrest, Nat.add_sub_add_right]

/-- The matches in two texts agree from code that the texts share, of which the next `pending`
characters belong to a match. -/
theorem matchesFrom_eq {previous : Option Char} {depth pending : Nat}
    (hsettles : Settles recognise plain) (h : Rewritten n s s')
    (hs : InCode recognise plain previous depth s) (hs' : InCode recognise plain previous depth s')
    (hpending : pending ≤ n) :
    matchesFrom recognise previous pending s = matchesFrom recognise previous pending s' := by
  induction h generalizing previous depth pending with
  | refl s => rfl
  | @code n c s s' hopens hopens' hrest ih =>
      have hs₁ := hs.tail hopens
      have hs₁' := hs'.tail hopens'
      cases pending with
      | succ pending => exact ih hs₁ hs₁' (Nat.le_of_succ_le_succ hpending)
      | zero =>
          rcases (Rewritten.code hopens hopens' hrest).eq_or_barrier with
            hsame | ⟨t, x, w, w', hx, ht, hn, hw, hw'⟩
          · rw [hsame]
          · have hmatch (result : α × Nat) (h : recognise previous (c :: s) = some result) :
                result.2 ≤ n + 1 ∧ recognise previous (c :: s') = some result := by
              rw [hw', ← hn]
              exact hs.settled hsettles hx ht hw h
            have hmatch' (result : α × Nat) (h : recognise previous (c :: s') = some result) :
                recognise previous (c :: s) = some result := by
              rw [hw]
              exact (hs'.settled hsettles hx ht hw' h).2
            rw [matchesFrom, matchesFrom]
            cases hleft : recognise previous (c :: s) with
            | some result =>
                obtain ⟨hle, hright⟩ := hmatch result hleft
                rw [hright]
                exact congrArg (result.1 :: ·) (ih hs₁ hs₁' (by omega))
            | none =>
                cases hright : recognise previous (c :: s') with
                | some result => simp [hmatch' result hright] at hleft
                | none => exact ih hs₁ hs₁' (Nat.zero_le n)
  | @string n q a s s' hpart hpart' _ ih =>
      rw [matchesFrom_append pending fun p q ha hq => hs.eq_none hpart ha hq,
        matchesFrom_append pending fun p q ha hq => hs'.eq_none hpart' ha hq]
      exact ih (hs.drop hpart) (hs'.drop hpart') (by omega)
  | @part n frame a b s s' _ hpart hpart' hrest ih =>
      obtain rfl : pending = 0 := Nat.le_zero.1 hpending
      rw [matchesFrom_append 0 fun p q ha hq => hs.eq_none hpart ha hq,
        matchesFrom_append 0 fun p q ha hq => hs'.eq_none hpart' ha hq, Nat.zero_sub, Nat.zero_sub]
      by_cases hnil : s = []
      · rw [hnil, hrest.eq_nil_iff.1 hnil, matchesFrom, matchesFrom]
      · have hnil' : s' ≠ [] := fun h => hnil (hrest.eq_nil_iff.2 h)
        have hlast := getLast?_of_part? hpart (.inr hnil)
        have hlast' := getLast?_of_part? hpart' (.inr hnil')
        have hd := hs.drop hpart
        have hd' := hs'.drop hpart'
        rw [hlast] at hd ⊢
        rw [hlast'] at hd' ⊢
        exact ih hd hd' (Nat.zero_le n)

theorem exists_matched {previous : Option Char} {pending : Nat} {r : α}
    (h : r ∈ matchesFrom recognise previous pending s) :
    ∃ p t length, s = p ++ t ∧ recognise (p.getLast?.or previous) t = some (r, length) := by
  induction s generalizing previous pending with
  | nil => simp [matchesFrom] at h
  | cons c s ih =>
      have later {pending : Nat} (h : r ∈ matchesFrom recognise (some c) pending s) :
          ∃ p t length, c :: s = p ++ t ∧ recognise (p.getLast?.or previous) t = some (r, length) := by
        obtain ⟨p, t, length, rfl, hfound⟩ := ih h
        exact ⟨c :: p, t, length, rfl, by rw [getLast?_cons_or]; exact hfound⟩
      cases pending with
      | succ pending => exact later h
      | zero =>
          rw [matchesFrom] at h
          split at h
          · rename_i hfound
            rcases List.mem_cons.1 h with rfl | h
            · exact ⟨[], c :: s, _, rfl, hfound⟩
            · exact later h
          · exact later h

theorem depthsFrom_of_code {p t : List Char} {hidden depth d : Nat}
    (h : (depthsFrom hidden depth (p ++ t))[p.length]? = some (some d)) (k : Nat) :
    (depthsFrom hidden depth (p ++ t))[p.length + k]? = (depthsFrom 0 d t)[k]? := by
  induction p generalizing hidden depth with
  | nil =>
      cases t with
      | nil => simp [depthsFrom] at h
      | cons c t =>
          cases hidden with
          | succ hidden => simp [depthsFrom] at h
          | zero =>
              cases hopens : opens? 0 c t.head? with
              | some found => simp [depthsFrom, hopens] at h
              | none =>
                  obtain rfl : depth = d := by simpa [depthsFrom, hopens] using h
                  simp
  | cons c p ih =>
      rw [List.length_cons, Nat.add_right_comm, List.cons_append] at *
      cases hidden with
      | succ hidden => exact ih h
      | zero =>
          cases hopens : opens? 0 c (p ++ t).head? with
          | some found =>
              rw [depthsFrom, hopens] at h ⊢
              exact ih h
          | none =>
              rw [depthsFrom, hopens] at h ⊢
              exact ih h

/-- Characters that neither open a part nor stand for brackets. -/
def isInert (c : Char) : Bool := isPlain c && (closerOf? c).isNone && !isCloser c

theorem depthsFrom_inert {p : List Char} (hp : ∀ c ∈ p, isInert c = true) (depth : Nat)
    (t : List Char) :
    depthsFrom 0 depth (p ++ t) = List.replicate p.length (some depth) ++ depthsFrom 0 depth t := by
  induction p with
  | nil => rfl
  | cons c p ih =>
      obtain ⟨hc, hp⟩ := List.forall_mem_cons.1 hp
      simp only [isInert, Bool.and_eq_true, Bool.not_eq_true', Option.isNone_iff_eq_none] at hc
      obtain ⟨⟨hplain, hopen⟩, hclose⟩ := hc
      have hopens := opens?_of_plain hplain 0 (p ++ t).head?
      have hdepth : bracketed depth c = depth := by simp [bracketed, hopen, hclose]
      rw [List.cons_append, depthsFrom, hopens, hdepth, ih hp]
      rfl

theorem isSome_someBlanks? {s r : List Char} (h : r ∈ pastSomeBlanks s) :
    (someBlanks? s).isSome = true := by
  cases s with
  | nil => simp [pastSomeBlanks] at h
  | cons c s =>
      simp only [pastSomeBlanks] at h
      split_ifs at h with hc
      · simp [someBlanks?, hc]
      · simp at h

theorem declares_of_import? {previous : Option Char} {r : (List Char × List Char) × Nat}
    (h : import? previous s = some r) : declares previous s = true := by
  simp only [import?, bind, Option.bind_eq_some_iff, guard] at h
  obtain ⟨_, hword, r, hr, found, hfound, -⟩ := h
  obtain ⟨r', hr', -⟩ := List.exists_of_findSome?_eq_some hfound
  cases hprevious : previous.any isWord with
  | true => simp [hprevious, failure] at hword
  | false =>
      simp only [declares, hprevious, hr, Option.bind_some, isSome_someBlanks? hr', Bool.not_false,
        Bool.true_or, Bool.and_self]

theorem declares_of_require? {previous : Option Char} {r : (List Char × List Char) × Nat}
    (h : require? previous s = some r) : declares previous s = true := by
  rw [require?_eq] at h
  split_ifs at h with hword
  obtain ⟨target, htarget, -⟩ := Option.bind_eq_some_iff.1 h
  obtain ⟨rest, hrest, -⟩ := Option.bind_eq_some_iff.1 htarget
  simp only [declares, hword, hrest, Option.isSome_some, Bool.or_true, Bool.and_true,
    Bool.not_false]

theorem declaresLine_of_constant? {previous : Option Char} {r : (List Char × List Char) × Nat}
    (h : constant? previous s = some r) : declaresLine previous s = true := by
  rw [constant?_eq] at h
  split_ifs at h with hline
  obtain ⟨rest, hrest, -⟩ := Option.bind_eq_some_iff.1 h
  simp [declaresLine, hline, hrest]

/-- Declarations are recognised in code only, those of constants outside of brackets, and what is
taken apart in braces is plain. -/
structure Clear (s : List Char) : Prop where
  imports : ∀ k ≤ s.length, (import? (s.take k).getLast? (s.drop k)).isSome = true →
    (codeDepth? s k).isSome = true
  calls : ∀ k ≤ s.length, (require? (s.take k).getLast? (s.drop k)).isSome = true →
    plainPattern (s.drop k) = true ∧ (codeDepth? s k).isSome = true
  constants : ∀ k ≤ s.length, (constant? (s.take k).getLast? (s.drop k)).isSome = true →
    codeDepth? s k = some 0

theorem inCode_of_codeDepth? (h : ∀ k ≤ s.length, (recognise (s.take k).getLast? (s.drop k)).isSome =
    true → plain (s.drop k) = true ∧ (codeDepth? s k).isSome = true) :
    InCode recognise plain none 0 s := by
  rintro p t rfl hsome
  rw [Option.or_none] at hsome
  obtain ⟨hplain, hcode⟩ := h p.length (by simp) (by simpa using hsome)
  obtain ⟨d, hd⟩ := Option.isSome_iff_exists.1 hcode
  exact ⟨by simpa using hplain, d, Option.join_eq_some_iff.1 hd⟩

theorem allMatches_eq (hsettles : Settles recognise plain) (h : SameCode s s')
    (hs : InCode recognise plain none 0 s) (hs' : InCode recognise plain none 0 s') :
    allMatches recognise s = allMatches recognise s' := by
  obtain ⟨n, hrewritten⟩ := h
  exact matchesFrom_eq hsettles hrewritten hs hs' (Nat.zero_le n)

namespace Clear

variable {p : List Char}

theorem import?_inCode (h : Clear s) : InCode import? (fun _ => true) none 0 s :=
  inCode_of_codeDepth? fun k hk hsome => ⟨rfl, h.imports k hk hsome⟩

theorem require?_inCode (h : Clear s) : InCode require? plainPattern none 0 s :=
  inCode_of_codeDepth? h.calls

theorem constant?_inCode (h : Clear s) : InCode constant? (fun _ => true) none 0 s :=
  inCode_of_codeDepth? fun k hk hsome => ⟨rfl, by rw [h.constants k hk hsome]; rfl⟩

theorem parseImports_eq (h : Clear s) (h' : Clear s') (hsame : SameCode s s') :
    parseImports s = parseImports s' := by
  rw [parseImports, parseImports,
    allMatches_eq import?_settles hsame h.import?_inCode h'.import?_inCode,
    allMatches_eq require?_settles hsame h.require?_inCode h'.require?_inCode]

theorem parseConstants_eq (h : Clear s) (h' : Clear s') (hsame : SameCode s s') :
    parseConstants s = parseConstants s' := by
  rw [parseConstants, parseConstants,
    allMatches_eq constant?_settles hsame h.constant?_inCode h'.constant?_inCode]

end Clear

/-- A declaration that stands here binds a name to a specifier. -/
inductive Binds (previous : Option Char) (s : List Char) (name source : String) : Prop
  | clause {clause : List Char} {names : List (List Char)} {length : Nat}
      (found : import? previous s = some ((clause, source.toList), length))
      (names_eq : clauseNames clause = .ok names) (mem : name.toList ∈ names)
  | call {target : List Char} {length : Nat}
      (found : require? previous s = some ((target, source.toList), length))
      (mem : name.toList ∈ targetNames target)

theorem Binds.codeDepth? {p : List Char} {name source : String} (h : Clear s) (hs : s = p ++ t)
    (hbinds : Binds p.getLast? t name source) : (codeDepth? s p.length).isSome = true := by
  subst hs
  cases hbinds with
  | clause found => exact h.imports p.length (by simp) (by simp [found])
  | call found => exact (h.calls p.length (by simp) (by simp [found])).2

theorem Binds.declares {previous : Option Char} {name source : String}
    (h : Binds previous s name source) : declares previous s = true := by
  cases h with
  | clause found => exact declares_of_import? found
  | call found => exact declares_of_require? found

theorem Imports.mem_sources_add {imports : Imports} {name name' source source' : String}
    (h : source ∈ (imports.add name' source').sources name) :
    source ∈ imports.sources name ∨ name = name' ∧ source = source' := by
  induction imports with
  | nil =>
      simp only [Imports.add, Imports.sources, List.lookup_cons, List.lookup_nil] at h
      split at h
      · rename_i hname
        exact .inr ⟨by simpa using hname, by simpa using h⟩
      · simp at h
  | cons entry rest ih =>
      obtain ⟨n, sources⟩ := entry
      simp only [Imports.add, Imports.sources, List.lookup_cons] at h ih ⊢
      by_cases hn : n = name'
      · subst hn
        rw [if_pos rfl, List.lookup_cons] at h
        split at h
        · rename_i hname
          simp only [Option.getD_some] at h
          split_ifs at h
          · exact .inl (by simpa [hname] using h)
          · refine (List.mem_append.1 h).imp (fun h => by simpa [hname] using h) fun h => ?_
            exact ⟨by simpa using hname, by simpa using h⟩
        · rename_i hname
          exact .inl (by simpa [hname] using h)
      · rw [if_neg hn, List.lookup_cons] at h
        split at h
        · rename_i hname
          exact .inl (by simpa [hname] using h)
        · rename_i hname
          exact (ih h).imp_left fun h => by simpa [hname] using h

theorem Imports.mem_sources_addAll {imports : Imports} {names : List (List Char)}
    {specifier : List Char} {name source : String}
    (h : source ∈ (imports.addAll names specifier).sources name) :
    source ∈ imports.sources name ∨ name.toList ∈ names ∧ source.toList = specifier := by
  induction names generalizing imports with
  | nil => exact .inl h
  | cons n names ih =>
      have hrest : source ∈ ((imports.add (String.ofList n) (String.ofList specifier)).addAll names
          specifier).sources name := h
      rcases ih hrest with h | ⟨hname, hsource⟩
      · refine (Imports.mem_sources_add h).imp_right ?_
        rintro ⟨rfl, rfl⟩
        exact ⟨by simp, by simp⟩
      · exact .inr ⟨List.mem_cons_of_mem _ hname, hsource⟩

theorem Imports.mem_sources_foldl {imports : Imports} {l : List (List (List Char) × List Char)}
    {name source : String}
    (h : source ∈ (l.foldl (fun imports entry => imports.addAll entry.1 entry.2) imports).sources
      name) :
    source ∈ imports.sources name ∨ ∃ names, (names, source.toList) ∈ l ∧ name.toList ∈ names := by
  induction l generalizing imports with
  | nil => exact .inl h
  | cons entry l ih =>
      rcases ih h with h | ⟨names, hmem, hname⟩
      · refine (Imports.mem_sources_addAll h).imp_right ?_
        rintro ⟨hname, hsource⟩
        exact ⟨entry.1, by simp [hsource], hname⟩
      · exact .inr ⟨names, List.mem_cons_of_mem _ hmem, hname⟩

theorem exists_of_mem_mapM {ε α β : Type} {f : α → Except ε β} {l : List α} {bs : List β} {b : β}
    (h : l.mapM f = .ok bs) (hb : b ∈ bs) : ∃ a ∈ l, f a = .ok b := by
  induction l generalizing bs with
  | nil =>
      obtain rfl : [] = bs := by simpa [pure, Except.pure] using h
      simp at hb
  | cons a l ih =>
      rw [List.mapM_cons] at h
      obtain ⟨b', ha, hrest⟩ := bind_eq_ok_iff.1 h
      obtain ⟨bs', hl, hbs⟩ := bind_eq_ok_iff.1 hrest
      obtain rfl := Except.ok.inj hbs
      rcases List.mem_cons.1 hb with rfl | hb
      · exact ⟨a, List.mem_cons_self, ha⟩
      · obtain ⟨a', hmem, ha'⟩ := ih hl hb
        exact ⟨a', List.mem_cons_of_mem _ hmem, ha'⟩

theorem exists_binds {imports : Imports} (h : parseImports s = .ok imports) {name source : String}
    (hmem : source ∈ imports.sources name) :
    ∃ p t, s = p ++ t ∧ Binds p.getLast? t name source := by
  rw [parseImports] at h
  obtain ⟨declared, hdeclared, himports⟩ := bind_eq_ok_iff.1 h
  obtain rfl := Except.ok.inj himports
  rcases Imports.mem_sources_foldl hmem with hmem | ⟨names, hmem, hname⟩
  · simp [Imports.sources] at hmem
  rcases List.mem_append.1 hmem with hmem | hmem
  · obtain ⟨⟨clause, specifier⟩, hmatch, hnames⟩ := exists_of_mem_mapM hdeclared hmem
    obtain ⟨p, t, length, hs, hfound⟩ := exists_matched hmatch
    rw [Option.or_none] at hfound
    cases hclause : clauseNames clause with
    | error e => simp [hclause, Except.map] at hnames
    | ok names' =>
        obtain ⟨rfl, rfl⟩ : names' = names ∧ specifier = source.toList := by
          simpa [hclause, Except.map] using hnames
        exact ⟨p, t, hs, .clause hfound hclause hname⟩
  · obtain ⟨⟨target, specifier⟩, hmatch, hnames⟩ := List.mem_map.1 hmem
    obtain ⟨p, t, length, hs, hfound⟩ := exists_matched hmatch
    rw [Option.or_none] at hfound
    obtain ⟨rfl, rfl⟩ : targetNames target = names ∧ specifier = source.toList := by
      simpa using hnames
    exact ⟨p, t, hs, .call hfound hname⟩

theorem isInert_iff {c : Char} :
    isInert c = true ↔ c ∉ ['\'', '"', '/', '`', '(', '[', '{', ')', ']', '}'] := by
  have hopener : closerOf? c = none ↔ c ≠ '(' ∧ c ≠ '[' ∧ c ≠ '{' := by
    unfold closerOf?
    split <;> simp_all
  simp [isInert, isPlain, isQuote, isCloser, hopener, and_assoc]

theorem isInert_of_isBlank {c : Char} (h : isBlank c = true) : isInert c = true := by
  refine isInert_iff.2 fun hmem => ?_
  simp only [List.mem_cons, List.not_mem_nil, or_false] at hmem
  rcases hmem with rfl | rfl | rfl | rfl | rfl | rfl | rfl | rfl | rfl | rfl <;> exact absurd h (by decide)

theorem isInert_of_isInlineBlank {c : Char} (h : isInlineBlank c = true) : isInert c = true := by
  simp only [isInlineBlank, Bool.or_eq_true, decide_eq_true_eq] at h
  rcases h with rfl | rfl <;> decide

theorem exists_blanks {s r : List Char} (h : someBlanks? s = some r) :
    ∃ blanks, s = blanks ++ r ∧ blanks ≠ [] ∧ ∀ c ∈ blanks, isBlank c = true := by
  cases s with
  | nil => simp [someBlanks?] at h
  | cons c s =>
      simp only [someBlanks?] at h
      split_ifs at h with hc
      obtain rfl := Option.some.inj h
      refine ⟨c :: s.takeWhile isBlank, ?_, List.cons_ne_nil _ _, ?_⟩
      · rw [List.cons_append, trimStart, List.takeWhile_append_dropWhile]
      · exact List.forall_mem_cons.2 ⟨hc, fun d hd => List.mem_takeWhile_imp hd⟩

theorem exists_declarator {s r : List Char} (h : declarator? s = some r) :
    ∃ keyword ∈ ["const".toList, "let".toList, "var".toList], s = keyword ++ r := by
  simp only [declarator?, Option.or_eq_some_iff] at h
  rcases h with h | ⟨-, h | ⟨-, h⟩⟩
  · exact ⟨_, by simp, after?_eq_some_iff.1 h⟩
  · exact ⟨_, by simp, after?_eq_some_iff.1 h⟩
  · exact ⟨_, by simp, after?_eq_some_iff.1 h⟩

theorem exists_indent (t : List Char) :
    ∃ indent, t = indent ++ declarationIn t ∧ ∀ c ∈ indent, isInert c = true := by
  have hblanks : ∀ c ∈ t.takeWhile isInlineBlank, isInert c = true := fun c hc =>
    isInert_of_isInlineBlank (List.mem_takeWhile_imp hc)
  simp only [declarationIn]
  cases hs : (after? "export".toList (t.dropWhile isInlineBlank)).bind someBlanks? with
  | none => exact ⟨_, (List.takeWhile_append_dropWhile).symm, hblanks⟩
  | some s =>
      obtain ⟨r, hr, hsome⟩ := Option.bind_eq_some_iff.1 hs
      obtain ⟨blanks, rfl, -, hinert⟩ := exists_blanks hsome
      refine ⟨t.takeWhile isInlineBlank ++ "export".toList ++ blanks, ?_, ?_⟩
      · rw [Option.getD_some, List.append_assoc, List.append_assoc, ← after?_eq_some_iff.1 hr,
          List.takeWhile_append_dropWhile]
      · intro c hc
        rcases List.mem_append.1 hc with hc | hc
        · rcases List.mem_append.1 hc with hc | hc
          · exact hblanks c hc
          · exact List.all_eq_true.1 (show "export".toList.all isInert = true by decide) c hc
        · exact isInert_of_isBlank (hinert c hc)

theorem exists_keyword_of_declaresLine {previous : Option Char} (h : declaresLine previous t = true) :
    ∃ indent keyword rest, t = indent ++ keyword ++ rest ∧
      keyword ∈ ["const".toList, "let".toList, "var".toList] ∧ ∀ c ∈ indent, isInert c = true := by
  simp only [declaresLine, Bool.and_eq_true] at h
  obtain ⟨s, hs⟩ := Option.isSome_iff_exists.1 h.2
  obtain ⟨r, hr, -⟩ := Option.bind_eq_some_iff.1 hs
  obtain ⟨indent, ht, hinert⟩ := exists_indent t
  obtain ⟨keyword, hmem, hdeclaration⟩ := exists_declarator hr
  exact ⟨indent, keyword, r, by rw [List.append_assoc, ← hdeclaration, ← ht], hmem, hinert⟩

theorem exists_keyword_of_declares {previous : Option Char} (h : declares previous t = true) :
    ∃ keyword rest, t = keyword ++ rest ∧
      keyword ∈ ["import".toList, "const".toList, "let".toList, "var".toList] := by
  simp only [declares, Bool.and_eq_true, Bool.or_eq_true] at h
  obtain ⟨-, h | h⟩ := h
  · obtain ⟨s, hs⟩ := Option.isSome_iff_exists.1 h
    obtain ⟨r, hr, -⟩ := Option.bind_eq_some_iff.1 hs
    exact ⟨_, r, after?_eq_some_iff.1 hr, by simp⟩
  · obtain ⟨s, hs⟩ := Option.isSome_iff_exists.1 h
    obtain ⟨r, hr, -⟩ := Option.bind_eq_some_iff.1 hs
    obtain ⟨keyword, hmem, hdeclaration⟩ := exists_declarator hr
    exact ⟨keyword, r, hdeclaration, List.mem_cons_of_mem _ hmem⟩

theorem exists_constant {name literal : String} (h : (name, literal) ∈ parseConstants s) :
    ∃ p t length, s = p ++ t ∧
      constant? p.getLast? t = some ((name.toList, literal.toList), length) := by
  obtain ⟨p, t, length, hs, hfound⟩ := exists_matched (mem_matches_of_mem_parseConstants h)
  exact ⟨p, t, length, hs, by rwa [Option.or_none] at hfound⟩

theorem codeDepth?_indent {p indent keyword rest : List Char} {d : Nat}
    (hinert : ∀ c ∈ indent, isInert c = true)
    (hkeyword : keyword ∈ ["const".toList, "let".toList, "var".toList])
    (h : codeDepth? (p ++ (indent ++ keyword ++ rest)) p.length = some d) :
    codeDepth? (p ++ (indent ++ keyword ++ rest)) (p ++ indent).length = some d := by
  have hwords : ∀ keyword ∈ ["const".toList, "let".toList, "var".toList],
      keyword ≠ [] ∧ keyword.all isInert = true := by decide +kernel
  obtain ⟨hne, hletters⟩ := hwords keyword hkeyword
  replace hletters := List.all_eq_true.1 hletters
  have hrest := depthsFrom_of_code (Option.join_eq_some_iff.1 h) indent.length
  rw [List.append_assoc indent, depthsFrom_inert hinert, depthsFrom_inert hletters,
    List.getElem?_append_right (by simp), List.length_replicate, Nat.sub_self,
    List.getElem?_append_left (by simpa using List.length_pos_iff.2 hne)] at hrest
  refine Option.join_eq_some_iff.2 ?_
  rw [List.length_append, List.append_assoc indent, hrest]
  simp [List.length_pos_iff.2 hne]

/-- What is reported of a source: imports come from declarations in code, constants from
declarations outside of brackets, and comments and templates have no say in it. -/
structure Faithful (s : List Char) : Prop where
  imports : ∀ imports, parseImports s = .ok imports → ∀ name source, source ∈ imports.sources name →
    ∃ p keyword rest, s = p ++ keyword ++ rest ∧
      keyword ∈ ["import".toList, "const".toList, "let".toList, "var".toList] ∧
      (codeDepth? s p.length).isSome = true ∧ Binds p.getLast? (keyword ++ rest) name source
  constants : ∀ name literal, (name, literal) ∈ parseConstants s →
    ∃ p indent keyword rest length, s = p ++ indent ++ keyword ++ rest ∧
      keyword ∈ ["const".toList, "let".toList, "var".toList] ∧
      codeDepth? s (p ++ indent).length = some 0 ∧
      constant? p.getLast? (indent ++ keyword ++ rest) =
        some ((name.toList, literal.toList), length)
  rewriting : ∀ s', Clear s' → SameCode s s' →
    parseImports s' = parseImports s ∧ parseConstants s' = parseConstants s

/-- If no more than code is recognised, no more than code is reported. -/
theorem declarations_faithful {s : List Char} (h : Clear s) : Faithful s := by
  constructor
  case imports =>
    intro imports himports name source hmem
    obtain ⟨p, t, hs, hbinds⟩ := exists_binds himports hmem
    have hcode := hbinds.codeDepth? h hs
    obtain ⟨keyword, rest, rfl, hkeyword⟩ := exists_keyword_of_declares hbinds.declares
    exact ⟨p, keyword, rest, by rw [hs, List.append_assoc], hkeyword, hcode, hbinds⟩
  case constants =>
    intro name literal hmem
    obtain ⟨p, t, length, rfl, hfound⟩ := exists_constant hmem
    have hdepth := h.constants p.length (by simp) (by simp [hfound])
    have hline := declaresLine_of_constant? hfound
    obtain ⟨indent, keyword, rest, rfl, hkeyword, hinert⟩ := exists_keyword_of_declaresLine hline
    exact ⟨p, indent, keyword, rest, length, by simp, hkeyword,
      codeDepth?_indent hinert hkeyword hdepth, hfound⟩
  case rewriting =>
    exact fun s' h' hsame => ⟨(h.parseImports_eq h' hsame).symm, (h.parseConstants_eq h' hsame).symm⟩

def annotated (comment : String) : List Char :=
  "import { Box } from ".toList ++ ("'kit'".toList ++ (";\nconst size = 12;\n".toList ++
    (comment.toList ++ "const f = () => \x7b\n  return size;\n\x7d;\n".toList)))

theorem annotated_faithful :
    parseImports (annotated "// a note\n") = .ok [("Box", ["kit"])] ∧
      parseConstants (annotated "// a note\n") = [("size", "12")] ∧
      Faithful (annotated "// a note\n") ∧
      parseConstants (annotated "// another\n") = parseConstants (annotated "// a note\n") := by
  have hnote : Clear (annotated "// a note\n") := by constructor <;> decide +kernel
  have hother : Clear (annotated "// another\n") := by constructor <;> decide +kernel
  have hsame : SameCode (annotated "// a note\n") (annotated "// another\n") := by
    have hrest : Rewritten _ "const f = () => \x7b\n  return size;\n\x7d;\n".toList _ := .refl _
    have hcomment : Rewritten 0 ("// a note\n".toList ++ _) ("// another\n".toList ++ _) :=
      .part (show ∀ q, Frame.lineComment ≠ .string q by simp) (by decide) (by decide) hrest
    exact ⟨_, .append_plain (List.all_eq_true.1 (by decide)) (.string (q := '\'') (by decide) (by decide)
      (.append_plain (List.all_eq_true.1 (by decide)) hcomment))⟩
  have hfaithful := declarations_faithful hnote
  exact ⟨by decide +kernel, by decide +kernel, hfaithful, (hfaithful.rewriting _ hother hsame).2⟩

def strayDeclarations : List Char :=
  "// import A from 'a';\nfunction f() \x7b\n  const a = 1;\n\x7d\n".toList

theorem strayDeclarations_not_faithful :
    parseImports strayDeclarations = .ok [("A", ["a"])] ∧
      parseConstants strayDeclarations = [("a", "1")] ∧ ¬ Faithful strayDeclarations := by
  have himports : parseImports strayDeclarations = .ok [("A", ["a"])] := by decide +kernel
  have hnone : ∀ k ≤ strayDeclarations.length, (codeDepth? strayDeclarations k).isSome = true →
      (import? (strayDeclarations.take k).getLast? (strayDeclarations.drop k)).isNone ∧
        (require? (strayDeclarations.take k).getLast? (strayDeclarations.drop k)).isNone := by
    decide +kernel
  refine ⟨himports, by decide +kernel, fun h => ?_⟩
  obtain ⟨p, keyword, rest, hs, -, hcode, hbinds⟩ := h.imports _ himports "A" "a" (by decide)
  rw [List.append_assoc] at hs
  have hp := hnone p.length (by simp [hs]) hcode
  rw [hs, List.take_left, List.drop_left] at hp
  cases hbinds with
  | clause found => simp [found] at hp
  | call found => simp [found] at hp

end CssExtract.Script
