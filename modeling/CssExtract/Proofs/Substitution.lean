import CssExtract.Styled.Variable
import Mathlib.Data.List.Infix
import Mathlib.Data.List.TakeWhile

namespace CssExtract.Styled

def Opens (s : List Char) : Prop := ∃ name after, s = '[' :: (name ++ ']' :: after) ∧ '\n' ∉ name

inductive Stretch
  | text (s : List Char)
  | slot (name : List Char)
deriving DecidableEq, Repr

/-- What stands before the leftmost bracket that opens a placeholder is text, what stands up to the nearest
bracket that closes it is a name, and what stands after that is cut in the same way. -/
inductive Pass : List Char → List Stretch → Prop
  | last {s : List Char} (none : ∀ t, t <:+ s → ¬ Opens t) : Pass s [.text s]
  | next {before name after : List Char} {l : List Stretch}
      (leftmost : ∀ t, t <:+ before → t ≠ [] → ¬ Opens (t ++ '[' :: (name ++ ']' :: after)))
      (line : '\n' ∉ name) (nearest : ']' ∉ name) (h : Pass after l) :
      Pass (before ++ '[' :: (name ++ ']' :: after)) (.text before :: .slot name :: l)

variable {s t name name' after after' : List Char} {c : Char} {l l' : List Stretch}

theorem exists_nearest (h : Opens s) :
    ∃ name after, s = '[' :: (name ++ ']' :: after) ∧ '\n' ∉ name ∧ ']' ∉ name := by
  obtain ⟨name, after, rfl, hline⟩ := h
  by_cases hmem : ']' ∈ name
  · obtain ⟨near, far, rfl, hnear⟩ := List.eq_append_cons_of_mem hmem
    exact ⟨near, far ++ ']' :: after, by simp, fun h => hline (List.mem_append_left _ h), hnear⟩
  · exact ⟨name, after, rfl, hline, hmem⟩

theorem takeWhile_name (hline : '\n' ∉ name) (hnear : ']' ∉ name) :
    (name ++ ']' :: after).takeWhile (fun c => c ≠ ']' && c ≠ '\n') = name := by
  have hname : ∀ c ∈ name, (decide (c ≠ ']') && decide (c ≠ '\n')) = true := by
    intro c hc
    simp [ne_of_mem_of_not_mem hc hline, ne_of_mem_of_not_mem hc hnear]
  rw [List.takeWhile_append_of_pos hname]
  simp

theorem opens_cons_iff : Opens (c :: s) ↔
    c = '[' ∧ (s.drop (s.takeWhile fun c => c ≠ ']' && c ≠ '\n').length).head? = some ']' := by
  constructor
  · intro h
    obtain ⟨name, after, heq, hline, hnear⟩ := exists_nearest h
    obtain ⟨rfl, rfl⟩ := List.cons.inj heq
    rw [takeWhile_name hline hnear, List.drop_left]
    exact ⟨rfl, rfl⟩
  · rintro ⟨rfl, h⟩
    obtain ⟨after, hafter⟩ := List.head?_eq_some_iff.1 h
    obtain ⟨rest, hrest⟩ := List.takeWhile_prefix (fun c => decide (c ≠ ']') && decide (c ≠ '\n')) (l := s)
    have hdrop := congrArg (List.drop (s.takeWhile fun c => c ≠ ']' && c ≠ '\n').length) hrest
    rw [List.drop_left, hafter] at hdrop
    refine ⟨_, after, by rw [← hdrop, hrest], fun hmem => ?_⟩
    simpa using List.mem_takeWhile_imp hmem

instance : DecidablePred Opens
  | [] => isFalse fun ⟨_, _, h, _⟩ => nomatch h
  | _ :: _ => decidable_of_iff' _ opens_cons_iff

theorem Pass.cons (hc : ¬ Opens (c :: s)) (h : Pass s (.text t :: l)) : Pass (c :: s) (.text (c :: t) :: l) := by
  cases h with
  | last none =>
      refine .last fun u hu => ?_
      rcases List.suffix_cons_iff.1 hu with rfl | hu
      · exact hc
      · exact none u hu
  | next leftmost line nearest h =>
      rw [← List.cons_append] at hc ⊢
      refine .next (fun u hu hne => ?_) line nearest h
      rcases List.suffix_cons_iff.1 hu with rfl | hu
      · exact hc
      · exact leftmost u hu hne

theorem exists_pass (s : List Char) : ∃ t l, Pass s (.text t :: l) := by
  induction hn : s.length using Nat.strongRecOn generalizing s with
  | _ n ih =>
    by_cases hopens : Opens s
    · obtain ⟨name, after, rfl, hline, hnear⟩ := exists_nearest hopens
      obtain ⟨t, l, h⟩ := ih after.length (by simp [← hn]; omega) after rfl
      rw [← List.nil_append ('[' :: _)]
      exact ⟨[], _, .next (fun u hu hne => absurd (List.suffix_nil.1 hu) hne) hline hnear h⟩
    · cases s with
      | nil => exact ⟨[], [], .last fun u hu => List.suffix_nil.1 hu ▸ hopens⟩
      | cons c s =>
          obtain ⟨t, l, h⟩ := ih s.length (by simp [← hn]) s rfl
          exact ⟨c :: t, l, h.cons hopens⟩

theorem append_bracket_inj (hname : ']' ∉ name) (hname' : ']' ∉ name')
    (h : name ++ ']' :: after = name' ++ ']' :: after') : name = name' ∧ after = after' := by
  obtain ⟨u, rfl, hu⟩ | ⟨u, rfl, hu⟩ := List.append_eq_append_iff.1 h
  all_goals cases u <;> simp_all

/-- Of two ways to cut a text at a bracket that opens a placeholder, none is further on. -/
theorem before_inj {before before' : List Char} (line : '\n' ∉ name) (line' : '\n' ∉ name')
    (leftmost : ∀ t, t <:+ before → t ≠ [] → ¬ Opens (t ++ '[' :: (name ++ ']' :: after)))
    (leftmost' : ∀ t, t <:+ before' → t ≠ [] → ¬ Opens (t ++ '[' :: (name' ++ ']' :: after')))
    (h : before ++ '[' :: (name ++ ']' :: after) = before' ++ '[' :: (name' ++ ']' :: after')) :
    before = before' := by
  obtain ⟨t, rfl, ht⟩ | ⟨t, rfl, ht⟩ := List.append_eq_append_iff.1 h
  · by_cases hne : t = []
    · rw [hne, List.append_nil]
    · exact absurd ⟨name, after, ht.symm, line⟩ (leftmost' t (List.suffix_append before t) hne)
  · by_cases hne : t = []
    · rw [hne, List.append_nil]
    · exact absurd ⟨name', after', ht.symm, line'⟩ (leftmost t (List.suffix_append before' t) hne)

theorem Pass.unique (h : Pass s l) (h' : Pass s l') : l = l' := by
  induction h generalizing l' with
  | @last s none =>
      cases h' with
      | last => rfl
      | @next before name after l leftmost line =>
          exact absurd ⟨name, after, rfl, line⟩ (none _ (List.suffix_append before _))
  | @next before name after l leftmost line nearest h ih =>
      generalize hs : before ++ '[' :: (name ++ ']' :: after) = s at h'
      cases h' with
      | last none => exact absurd ⟨name, after, rfl, line⟩ (none _ (hs ▸ List.suffix_append before _))
      | @next before' name' after' l' leftmost' line' nearest' h' =>
          obtain rfl := before_inj line line' leftmost leftmost' hs
          obtain ⟨rfl, rfl⟩ := append_bracket_inj nearest nearest' (List.cons.inj (List.append_cancel_left hs)).2
          rw [ih h']

def Stretch.pieces : Stretch → List Piece
  | .text s => s.map .literal
  | .slot name => [.placeholder (String.ofList name)]

theorem piecesFrom_pending (n : Nat) (s : List Char) : piecesFrom n s = piecesFrom 0 (s.drop n) := by
  induction s generalizing n with
  | nil => cases n <;> simp [piecesFrom]
  | cons c s ih =>
      cases n with
      | zero => rfl
      | succ n => rw [piecesFrom, ih, List.drop_succ_cons]

theorem piecesFrom_text (h : ¬ Opens (c :: s)) : piecesFrom 0 (c :: s) = .literal c :: piecesFrom 0 s := by
  rw [piecesFrom, if_neg]
  simpa [opens_cons_iff] using h

theorem piecesFrom_slot (hline : '\n' ∉ name) (hnear : ']' ∉ name) :
    piecesFrom 0 ('[' :: (name ++ ']' :: after)) = .placeholder (String.ofList name) :: piecesFrom 0 after := by
  rw [piecesFrom, takeWhile_name hline hnear, if_pos (by simp), piecesFrom_pending]
  simp

theorem piecesFrom_before {before : List Char}
    (leftmost : ∀ t, t <:+ before → t ≠ [] → ¬ Opens (t ++ s)) :
    piecesFrom 0 (before ++ s) = before.map .literal ++ piecesFrom 0 s := by
  induction before with
  | nil => rfl
  | cons c before ih =>
      have hc : ¬ Opens (c :: (before ++ s)) := leftmost _ (List.suffix_refl _) (List.cons_ne_nil _ _)
      rw [List.cons_append, piecesFrom_text hc, ih fun t ht => leftmost t (ht.trans (List.suffix_cons c before))]
      rfl

theorem Pass.piecesFrom_eq (h : Pass s l) : piecesFrom 0 s = l.flatMap Stretch.pieces := by
  induction h with
  | @last s none =>
      have hread := piecesFrom_before (s := []) fun t ht _ => (List.append_nil t).symm ▸ none t ht
      simpa [Stretch.pieces, piecesFrom] using hread
  | next leftmost line nearest h ih =>
      rw [piecesFrom_before leftmost, piecesFrom_slot line nearest, ih]
      simp [Stretch.pieces]

inductive Supply (m : Type → Type)
  | text (s : String)
  | callable (call : m String)

section

variable {m : Type → Type} [Monad m]

def Supply.give : Supply m → m String
  | .text s => pure s
  | .callable call => call

def supplied (values : Entries (Supply m)) (name : String) : m String :=
  match values.get? name with
  | some supply => supply.give
  | none => pure ""

def Stretch.render (value : String → m String) : Stretch → m String
  | .text s => pure (String.ofList s)
  | .slot name => value (String.ofList name)

/-- Notes a name with each call. -/
def Supply.noted (name : String) : Supply m → Supply (StateT (List String) m)
  | .text s => .text s
  | .callable call => .callable do
    modify (· ++ [name])
    call

def noted (values : Entries (Supply m)) : Entries (Supply (StateT (List String) m)) :=
  values.map fun entry => (entry.1, entry.2.noted entry.1)

def Stretch.calls (values : Entries (Supply m)) : Stretch → List String
  | .text _ => []
  | .slot name =>
    match values.get? (String.ofList name) with
    | some (.callable _) => [String.ofList name]
    | _ => []

theorem get?_noted (values : Entries (Supply m)) (name : String) :
    (noted values).get? name = (values.get? name).map (Supply.noted name) := by
  induction values with
  | nil => rfl
  | cons entry values ih =>
      obtain ⟨key, supply⟩ := entry
      by_cases hkey : key = name
      · simp [noted, Entries.get?, hkey]
      · simpa [noted, Entries.get?, hkey] using ih

variable [LawfulMonad m] (value : String → m String)

theorem fill_append (l l' : List Piece) : fill value (l ++ l') = (do
    let text ← fill value l
    return text ++ (← fill value l')) := by
  induction l with
  | nil => simp only [fill, List.nil_append, pure_bind, String.empty_append, bind_pure]
  | cons x l ih => cases x <;> simp only [fill, List.cons_append, ih, bind_assoc, pure_bind, String.append_assoc]

theorem fill_literals (s : List Char) : fill value (s.map .literal) = pure (String.ofList s) := by
  induction s with
  | nil => rfl
  | cons c s ih => simp [fill, ih, String.ofList_cons]

theorem fill_pieces (x : Stretch) : fill value x.pieces = x.render value := by
  cases x with
  | text s => exact fill_literals value s
  | slot name => simp [Stretch.pieces, Stretch.render, fill]

theorem fill_flatMap (l : List Stretch) :
    fill value (l.flatMap Stretch.pieces) = String.join <$> l.mapM (Stretch.render value) := by
  induction l with
  | nil => simp [fill, String.join]
  | cons x l ih =>
      rw [List.flatMap_cons, fill_append, fill_pieces, ih, List.mapM_cons]
      simp [String.join_cons]

theorem Stretch.run_render (values : Entries (Supply m)) (x : Stretch) (calls : List String) :
    (x.render (supplied (noted values))).run calls =
      (fun text => (text, calls ++ x.calls values)) <$> x.render (supplied values) := by
  cases x with
  | text s => simp [Stretch.render, Stretch.calls]
  | slot name =>
      rw [Stretch.render, Stretch.render, Stretch.calls, supplied, supplied, get?_noted]
      rcases values.get? (String.ofList name) with _ | s | call
      · simp
      · simp [Supply.noted, Supply.give]
      · simp [Supply.noted, Supply.give]

theorem run_mapM_render (values : Entries (Supply m)) (l : List Stretch) (calls : List String) :
    (l.mapM (Stretch.render (supplied (noted values)))).run calls =
      (fun texts => (texts, calls ++ l.flatMap (Stretch.calls values))) <$>
        l.mapM (Stretch.render (supplied values)) := by
  induction l generalizing calls with
  | nil => simp
  | cons x l ih => simp [List.mapM_cons, Stretch.run_render, ih]

/-- The pattern is cut in one way only, and the texts for its stretches are put together in their order. Each
placeholder with a value that is called for is one call, and there are no others. -/
theorem fill_pass (values : Entries (Supply m)) (pattern : String) :
    ∃ l, (∀ l', Pass pattern.toList l' ↔ l' = l) ∧
      fill (supplied values) (pieces pattern) = String.join <$> l.mapM (Stretch.render (supplied values)) ∧
      ∀ calls, (fill (supplied (noted values)) (pieces pattern)).run calls =
        (fun text => (text, calls ++ l.flatMap (Stretch.calls values))) <$>
          fill (supplied values) (pieces pattern) := by
  obtain ⟨t, l, h⟩ := exists_pass pattern.toList
  refine ⟨.text t :: l, fun l' => ⟨fun h' => h'.unique h, fun heq => heq ▸ h⟩, ?_, fun calls => ?_⟩
  · rw [pieces, h.piecesFrom_eq, fill_flatMap]
  · rw [pieces, h.piecesFrom_eq, fill_flatMap, fill_flatMap, StateT.run_map, run_mapM_render]
    simp

def tickets : Entries (Supply (StateM Nat)) :=
  [("[a", .text "<[n]>"), ("n", .callable (modifyGet fun count => (toString count, count + 1)))]

instance decidableSuffixes {p : List Char → Prop} [DecidablePred p] (s : List Char) : Decidable (∀ t, t <:+ s → p t) :=
  decidable_of_iff (∀ t ∈ s.tails, p t) (by simp)

theorem tickets_pass : Pass "[[a]-[n][x\n][n]][t".toList [.text [], .slot ['[', 'a'], .text ['-'], .slot ['n'],
    .text ['[', 'x', '\n', ']'], .slot ['n'], .text [']', '[', 't']] := by
  rw [show "[[a]-[n][x\n][n]][t".toList = [] ++ '[' :: (['[', 'a'] ++ ']' :: (['-'] ++ '[' :: (['n'] ++ ']' ::
    (['[', 'x', '\n', ']'] ++ '[' :: (['n'] ++ ']' :: [']', '[', 't']))))) from by decide]
  exact .next (by decide) (by decide) (by decide) <| .next (by decide) (by decide) (by decide) <|
    .next (by decide) (by decide) (by decide) (.last (by decide))

theorem tickets_filled :
    ((fill (supplied (noted tickets)) (pieces "[[a]-[n][x\n][n]][t")).run []).run 0 =
      (("<[n]>-0[x\n]1][t", ["n", "n"]), 2) := by
  obtain ⟨l, hl, htext, hcalls⟩ := fill_pass tickets "[[a]-[n][x\n][n]][t"
  obtain rfl := (hl _).1 tickets_pass
  rw [hcalls, htext]
  rfl

end

def texts {m : Type → Type} (values : Entries String) : Entries (Supply m) :=
  values.map fun entry => (entry.1, .text entry.2)

theorem supplied_texts {m : Type → Type} [Monad m] (values : Entries String) (name : String) :
    supplied (m := m) (texts values) name = pure ((values.get? name).getD "") := by
  induction values with
  | nil => rfl
  | cons entry values ih =>
      obtain ⟨key, value⟩ := entry
      by_cases hkey : key = name
      · simp [supplied, texts, Entries.get?, hkey, Supply.give]
      · simpa [supplied, texts, Entries.get?, hkey] using ih

theorem fillWith_eq (values : Entries String) (pattern : String) :
    fillWith values pattern = Id.run (fill (supplied (texts values)) (pieces pattern)) := by
  rw [fillWith, funext (supplied_texts values)]

theorem Variables.placeholder_eq (c : VariableContext) : Variables.placeholder c =
    supplied (("index", .callable (toString <$> Variables.allocate)) :: texts c.values) := by
  funext name
  by_cases hindex : name = "index"
  · simp only [placeholder, supplied, Entries.get?, hindex, if_true, Supply.give, bind_pure_comp]
  · have htexts := supplied_texts (m := StateM Variables) c.values name
    rw [supplied] at htexts
    rw [placeholder, if_neg hindex, supplied, Entries.get?, if_neg (Ne.symm hindex), htexts]

end CssExtract.Styled
