import CssExtract.Proofs.Assignment
import CssExtract.Proofs.HeadGrammar
import CssExtract.Proofs.Transparency

namespace CssExtract.Script

open Text

variable {s : List Char} {n : Nat}

theorem digitsLength_take (h : digitsLength s ≤ n) : digitsLength (s.take n) = digitsLength s := by
  rw [digitsLength, ← List.take_takeWhile, List.length_take]
  exact Nat.min_eq_right h

theorem mantissaLength_take (h : mantissaLength s ≤ n) : mantissaLength (s.take n) = mantissaLength s := by
  have hdigits : digitsLength s ≤ mantissaLength s := by
    simp only [mantissaLength]
    split <;> omega
  have hdrop := List.drop_take (l := s) (i := digitsLength s) (j := n)
  simp only [mantissaLength, digitsLength_take (Nat.le_trans hdigits h), hdrop]
  simp only [mantissaLength] at h
  cases hrest : s.drop (digitsLength s) with
  | nil => simp
  | cons c fraction =>
      by_cases hpoint : c = '.'
      · subst hpoint
        simp only [hrest] at h
        obtain ⟨k, hk⟩ : ∃ k, n - digitsLength s = k + 1 := ⟨n - digitsLength s - 1, by omega⟩
        rw [hk, List.take_succ_cons]
        simp only [digitsLength_take (s := fraction) (n := k) (by omega)]
      · cases n - digitsLength s <;> simp [hpoint]

theorem exponentLength_take_of_eq {e : Char} (sign : List Char) {digits : List Char}
    (h : ∀ ds, ds <+: digits → exponentLength (e :: (sign ++ ds)) =
      if digitsLength ds = 0 then 0 else digitsLength ds + sign.length + 1) :
    exponentLength ((e :: (sign ++ digits)).take (exponentLength (e :: (sign ++ digits)))) =
      exponentLength (e :: (sign ++ digits)) := by
  rw [h digits (List.prefix_refl _)]
  split_ifs with hnone
  · rfl
  · rw [List.take_succ_cons, Nat.add_comm (digitsLength digits), List.take_length_add_append,
      h _ (List.take_prefix _ _), digitsLength_take (Nat.le_refl _), if_neg hnone, Nat.add_comm sign.length]

theorem exponentLength_signed {e c : Char} (he : (e = 'e' || e = 'E') = true) (hc : c = '+' ∨ c = '-')
    (ds : List Char) :
    exponentLength (e :: c :: ds) = if digitsLength ds = 0 then 0 else digitsLength ds + 1 + 1 := by
  rcases hc with rfl | rfl <;>
    simp only [exponentLength, if_pos he, List.drop_one, List.tail_cons] <;>
    cases digitsLength ds <;> simp <;> omega

theorem exponentLength_unsigned {e : Char} (he : (e = 'e' || e = 'E') = true) {ds : List Char}
    (hsign : ∀ c ∈ ds.head?, ¬ (c = '+' ∨ c = '-')) :
    exponentLength (e :: ds) = if digitsLength ds = 0 then 0 else digitsLength ds + 1 := by
  cases ds with
  | nil => simp [exponentLength, digitsLength]
  | cons c ds =>
      obtain ⟨hplus, hminus⟩ := not_or.1 (hsign c rfl)
      rw [exponentLength, if_pos he]
      · simp only [List.drop_zero]
        cases digitsLength (c :: ds) <;> simp; omega
      · simp [hplus]
      · simp [hminus]

theorem exponentLength_take (s : List Char) :
    exponentLength (s.take (exponentLength s)) = exponentLength s := by
  cases s with
  | nil => rfl
  | cons e s =>
      by_cases he : (e = 'e' || e = 'E') = true
      · by_cases hsign : ∃ c ∈ s.head?, c = '+' ∨ c = '-'
        · obtain ⟨c, hhead, hc⟩ := hsign
          obtain ⟨digits, rfl⟩ := List.head?_eq_some_iff.1 hhead
          exact exponentLength_take_of_eq [c] fun ds _ => exponentLength_signed he hc ds
        · refine exponentLength_take_of_eq [] fun ds hds => exponentLength_unsigned he ?_
          intro c hc hsigned
          obtain ⟨rest, rfl⟩ := hds
          rw [List.nil_append] at hc
          exact hsign ⟨c, by simp [List.head?_append, Option.mem_def.1 hc], hsigned⟩
      · have hnone (s : List Char) : exponentLength (e :: s) = 0 := by simp only [exponentLength, if_neg he]
        rw [hnone]
        rfl

theorem numberLength?_take (h : numberLength? s = some n) : numberLength? (s.take n) = some n := by
  rw [numberLength?_eq] at h
  split_ifs at h with hnone
  obtain rfl := Option.some.inj h
  have hmantissa := mantissaLength_take (Nat.le_add_right (mantissaLength s)
    (exponentLength (s.drop (mantissaLength s))))
  have hdigits : digitsLength s ≤ mantissaLength s := by
    simp only [mantissaLength]
    split <;> omega
  rw [numberLength?_eq, hmantissa, digitsLength_take (by omega), if_neg hnone, List.drop_take,
    Nat.add_sub_cancel_left, exponentLength_take]

theorem signedNumberLength?_take (h : signedNumberLength? s = some n) :
    signedNumberLength? (s.take n) = some n := by
  cases s with
  | nil => simp [signedNumberLength?, numberLength?, digitsLength] at h
  | cons c s =>
      by_cases hc : c = '-'
      · subst hc
        obtain ⟨k, hk, rfl⟩ := Option.map_eq_some_iff.1 h
        simp [signedNumberLength?, numberLength?_take hk]
      · have hnumber : numberLength? (c :: s) = some n := by simpa [signedNumberLength?, hc] using h
        obtain ⟨k, rfl⟩ := Nat.exists_eq_add_of_lt (numberLength?_pos hnumber)
        simpa [signedNumberLength?, hc] using numberLength?_take hnumber

theorem stringLength?_take (h : stringLength? s = some n) : stringLength? (s.take n) = some n := by
  cases s with
  | nil => simp [stringLength?] at h
  | cons q s =>
      simp only [stringLength?] at h
      split_ifs at h with hq
      obtain ⟨k, hk, rfl⟩ := Option.map_eq_some_iff.1 h
      have hquote : isQuote q = true := by simpa [isQuote, or_comm] using hq
      have htail : stringTail? q (s.take k) = some k :=
        stringTail?_of_append (r := s.drop k) hquote (by rwa [List.take_append_drop])
          (by simpa using stringTail?_le hk)
      rw [List.take_succ_cons, stringLength?, if_pos hq, htail, Option.map_some]

theorem literalLength?_take (h : literalLength? s = some n) : literalLength? (s.take n) = some n := by
  rcases Option.or_eq_some_iff.1 h with hnumber | ⟨-, hstring⟩
  · rw [literalLength?, signedNumberLength?_take hnumber, Option.some_or]
  · obtain ⟨q, a, hquote, hs⟩ : ∃ q a, isQuote q = true ∧ s.take n = q :: a := by
      cases s with
      | nil => simp [stringLength?] at hstring
      | cons q s =>
          simp only [stringLength?] at hstring
          split_ifs at hstring with hq
          obtain ⟨k, -, rfl⟩ := Option.map_eq_some_iff.1 hstring
          exact ⟨q, s.take k, by simpa [isQuote, or_comm] using hq, List.take_succ_cons⟩
    rw [literalLength?, stringLength?_take hstring, hs, signedNumberLength?_quote hquote, Option.none_or]

/-- A text that is one number or one string. -/
def IsLiteral (s : List Char) : Prop := literalLength? s = some s.length

theorem isLiteral_cases (h : IsLiteral s) :
    (signedNumberLength? s = some s.length ∧ s.head?.any isQuote = false) ∨
      ∃ q a, s = q :: a ∧ isQuote q = true ∧ stringTail? q a = some a.length := by
  rcases Option.or_eq_some_iff.1 h with hnumber | ⟨-, hstring⟩
  · refine .inl ⟨hnumber, Bool.eq_false_iff.2 fun hany => ?_⟩
    obtain ⟨q, hq, hquote⟩ := (Option.any_eq_true _ _).1 hany
    obtain ⟨a, rfl⟩ := List.head?_eq_some_iff.1 hq
    simp [signedNumberLength?_quote hquote] at hnumber
  · cases s with
    | nil => simp [stringLength?] at hstring
    | cons q a =>
        simp only [stringLength?] at hstring
        split_ifs at hstring with hq
        exact .inr ⟨q, a, rfl, by simpa [isQuote, or_comm] using hq, by simpa using hstring⟩

theorem isLiteral_unpadded (h : IsLiteral s) : Unpadded s := by
  rcases isLiteral_cases h with ⟨hnumber, -⟩ | ⟨q, a, rfl, hq, htail⟩
  · have hword {a : List Char} (ha : numberLength? a = some a.length) : ∀ x ∈ a, isBlank x = false := by
      intro x hx
      rw [← List.take_length (l := a)] at hx
      exact Bool.eq_false_iff.2 fun hblank => not_endsWord_of_numberLength? ha x hx (endsWord_of_isBlank hblank)
    have hall : s ≠ [] ∧ ∀ x ∈ s, isBlank x = false := by
      unfold signedNumberLength? at hnumber
      split at hnumber
      · rename_i a
        have ha : numberLength? a = some a.length := by simpa using hnumber
        exact ⟨List.cons_ne_nil _ _, List.forall_mem_cons.2 ⟨by decide, hword ha⟩⟩
      · exact ⟨fun hnil => by have := numberLength?_pos hnumber; simp [hnil] at this, hword hnumber⟩
    exact ⟨_, _, List.head?_eq_some_head hall.1, List.getLast?_eq_some_getLast hall.1,
      hall.2 _ (List.head_mem _), hall.2 _ (List.getLast_mem _)⟩
  · obtain ⟨b, hb, -⟩ := stringText_of_stringTail? htail
    rw [List.take_length] at hb
    have hblank : isBlank q = false := Bool.eq_false_iff.2 fun hblank => by
      simp [isQuote_of_isBlank hblank] at hq
    exact ⟨q, q, rfl, by simp [hb, List.getLast?_cons], hblank, hblank⟩

theorem isVariable_unpadded {name : List Char} (h : IsVariable name) : Unpadded name :=
  ⟨_, _, List.head?_eq_some_head h.ne_nil, List.getLast?_eq_some_getLast h.ne_nil,
    not_isBlank_of_isNamePart (h.all _ (List.head_mem _)),
    not_isBlank_of_isNamePart (h.all _ (List.getLast_mem _))⟩

theorem Unpadded.trim_eq (h : Unpadded s) {before after : List Char} (hbefore : ∀ c ∈ before, isBlank c = true)
    (hafter : ∀ c ∈ after, isBlank c = true) : trim (before ++ (s ++ after)) = s := by
  obtain ⟨c, d, hc, hd, hfirst, hlast⟩ := h
  rw [trim, trimStart_append hbefore (by simp [List.head?_append, hc, hfirst]),
    trimEnd_append (by simpa [hd] using hlast) hafter]

theorem isConstant_of_constant? {previous : Option Char} {name literal : List Char}
    (h : constant? previous s = some ((name, literal), n)) : IsVariable name ∧ IsLiteral literal := by
  simp only [constant?, bind, Option.bind_eq_some_iff] at h
  obtain ⟨-, -, _, -, s₁, -, length, hlength, s₂, -, width, hwidth, rest, -, hmatched⟩ := h
  obtain ⟨⟨rfl, rfl⟩, -⟩ : (_ ∧ _) ∧ _ := by simpa [matched] using hmatched
  obtain ⟨name, r, rfl, rfl, hname⟩ := exists_variable hlength
  refine ⟨by rwa [List.take_left], ?_⟩
  rw [IsLiteral, literalLength?_take hwidth, List.length_take, Nat.min_eq_left (literalLength?_le hwidth)]

theorem isConstant_of_mem_parseConstants {name literal : String} (h : (name, literal) ∈ parseConstants s) :
    IsVariable name.toList ∧ IsLiteral literal.toList := by
  obtain ⟨_, _, _, hconstant⟩ := exists_recognised (mem_matches_of_mem_parseConstants h)
  exact isConstant_of_constant? hconstant

end CssExtract.Script

namespace CssExtract.Eval

open Evaluator Script Text

variable {constants : Entries String} {e : Evaluator} {name literal : String} {s : List Char}

def literalValue (literal : List Char) : Scalar :=
  if literal.head?.any isQuote then .string (String.ofList (unquote literal)) else .number (readNumber literal)

theorem rawShape_literal (h : IsLiteral s) : rawShape s = .scalar (literalValue s) := by
  rcases isLiteral_cases h with ⟨hnumber, hquote⟩ | ⟨q, a, rfl, hq, htail⟩
  · simp [rawShape, literalValue, hnumber, hquote]
  · have hstring : stringLength? (q :: a) = some (q :: a).length := by
      have hquote : (q = '"' || q = '\'') = true := by simpa [isQuote, or_comm] using hq
      simp [stringLength?, hquote, htail]
    simp [rawShape, literalValue, signedNumberLength?_quote hq, hstring, hq]

theorem rawShape_variable (h : IsVariable s) : rawShape s = .name (String.ofList s) := by
  have hname := h.nameLength? (r := []) rfl
  rw [List.append_nil] at hname
  obtain ⟨c, a, rfl, hc, -⟩ := h
  have hne {d : Char} (hd : isNameStart d = false) : c ≠ d := by
    rintro rfl
    exact absurd hc (by simp [hd])
  have hdigit : isDigit c = false := Bool.eq_false_iff.2 fun hdigit => by
    simp [isNameStart_of_isDigit hdigit] at hc
  have hnumber : signedNumberLength? (c :: a) = none := by
    simpa [signedNumberLength?, hne (d := '-') (by decide)] using
      numberLength?_eq_none hdigit (hne (by decide)) a
  have hstring : stringLength? (c :: a) = none := by
    simp [stringLength?, hne (d := '"') (by decide), hne (d := '\'') (by decide)]
  simp [rawShape, hnumber, hstring, hname]

def Evaluator.ofConstants (constants : Entries String) : Evaluator :=
  { bindings := constants.map fun (name, literal) => (name, .raw literal) }

def answer (constants : Entries String) (name : String) : Except EvalError Point :=
  match constants.get? name, global? name with
  | some literal, _ => .ok (.scalar (literalValue literal.toList))
  | none, some s => .ok (.scalar s)
  | none, none => .error (.unbound name)

/-- The constants are bound, and no name is known for anything but its constant. -/
structure Serves (constants : Entries String) (e : Evaluator) : Prop where
  literals : ∀ {name literal}, constants.get? name = some literal → IsLiteral literal.toList
  bindings : e.bindings = (ofConstants constants).bindings
  known : ∀ {name point}, e.known.get? name = some point →
    (constants.get? name).isSome ∧ answer constants name = .ok point

theorem Serves.exec_lookupWithin (h : Serves constants e) (depth : Nat) (name : String) :
    ∃ e', exec (lookupWithin (depth + 1) name) e = (answer constants name, e') ∧ Serves constants e' := by
  cases hknown : e.known.get? name with
  | some point => exact ⟨e, by rw [lookupWithin_known hknown, (h.known hknown).2], h⟩
  | none =>
      have hbinding : e.bindings.get? name = (constants.get? name).map .raw := by
        rw [h.bindings]
        exact Styled.get?_map_raw constants name
      cases hconstant : constants.get? name with
      | none =>
          refine ⟨e, ?_, h⟩
          rw [lookupWithin_unbound hknown (by rw [hbinding, hconstant]; rfl), answer, hconstant]
          cases global? name <;> rfl
      | some literal =>
          have hliteral := h.literals hconstant
          have hanswer : answer constants name = .ok (.scalar (literalValue literal.toList)) := by
            simp [answer, hconstant]
          have hshape : shape (.raw literal) = .scalar (literalValue literal.toList) := by
            have htrim : trim ([] ++ (literal.toList ++ [])) = literal.toList :=
              (isLiteral_unpadded hliteral).trim_eq (by simp) (by simp)
            rw [List.nil_append, List.append_nil] at htrim
            rw [shape, htrim, rawShape_literal hliteral]
          refine ⟨{ e with known := e.known.set name (.scalar (literalValue literal.toList)) }, ?_,
            h.literals, h.bindings, ?_⟩
          · rw [lookupWithin_raw hknown (by rw [hbinding, hconstant]; rfl), exec_evalNode, hshape, hanswer]
          · intro name' point hpoint
            by_cases hname : name' = name
            · subst hname
              rw [Entries.get?_set_self] at hpoint
              rw [← Option.some.inj hpoint]
              exact ⟨by simp [hconstant], hanswer⟩
            · rw [Entries.get?_set_of_ne hname] at hpoint
              exact h.known hpoint

theorem Serves.exec_lookup (h : Serves constants e) (name : String) :
    ∃ e', exec (lookup name) e = (answer constants name, e') ∧ Serves constants e' := by
  have hdepth : maxDepth e = (e.bindings.length * (e.bindings.length + 2) + e.bindings.length + 1) + 1 := by
    simp only [maxDepth, Nat.add_mul]
    omega
  rw [Evaluator.lookup, exec_bind, exec_get]
  dsimp only
  rw [hdepth]
  exact h.exec_lookupWithin _ name

theorem Serves.exec_evaluate (h : Serves constants e) (text : String) :
    ∃ result e', exec (evaluate (.raw text)) e = (result, e') ∧ Serves constants e' ∧
      ∀ name, rawShape (trim text.toList) = .name name → result = answer constants name := by
  have hexec : exec (evaluate (.raw text)) e =
      exec (evalNode (Evaluator.lookupWithin (maxDepth e)) (.raw text)) e := by
    rw [Evaluator.evaluate, exec_bind, exec_get]
  rw [hexec, exec_evalNode, shape]
  cases hshape : rawShape (trim text.toList) with
  | name name =>
      obtain ⟨e', hlookup, h'⟩ := h.exec_lookup name
      rw [Evaluator.lookup, exec_bind, exec_get] at hlookup
      exact ⟨_, e', hlookup, h', by rintro _ ⟨⟩; rfl⟩
  | scalar s | error error =>
      refine ⟨_, e, rfl, h, ?_⟩
      rintro _ ⟨⟩
  | object entries | array elements =>
      -- a source text is neither an object nor an array
      simp only [rawShape] at hshape
      split_ifs at hshape

theorem Serves.run_valuesOf (h : Serves constants e) {part : Entries String}
    (hpart : ∀ c ∈ part, constants.get? c.1 = some c.2) :
    ∃ e', (valuesOf (part.map (·.1))).run e =
      (part.map fun (name, literal) => (name, .scalar (literalValue literal.toList)), e') ∧
        Serves constants e' := by
  induction part generalizing e with
  | nil => exact ⟨e, rfl, h⟩
  | cons c part ih =>
      obtain ⟨hc, hpart⟩ := List.forall_mem_cons.1 hpart
      obtain ⟨e', hlookup, h'⟩ := h.exec_lookup c.1
      obtain ⟨e'', hrest, h''⟩ := ih h' hpart
      have hanswer : answer constants c.1 = .ok (.scalar (literalValue c.2.toList)) := by
        simp [answer, hc]
      refine ⟨e'', ?_, h''⟩
      rw [List.map_cons, Styled.run_valuesOf_cons, hlookup, hanswer]
      simp only [hrest, List.map_cons]

theorem Serves.run_values (h : Serves constants e) (hkeys : (constants.map (·.1)).Nodup) :
    ∃ e', values.run e =
      (constants.map fun (name, literal) => (name, .scalar (literalValue literal.toList)), e') ∧
        Serves constants e' := by
  have hnames : e.bindings.map (·.1) = constants.map (·.1) := by
    rw [h.bindings, ofConstants, List.map_map]
    rfl
  have hrun : values.run e = (Evaluator.valuesOf (e.bindings.map (·.1))).run e := rfl
  rw [hrun, hnames]
  exact h.run_valuesOf fun c hc => Entries.get?_of_mem hkeys hc

/-- Requests that bind nothing: for a name, for a source text and for all values. -/
inductive Request.Reads : Request → Prop
  | lookup (name : String) : Reads (.lookup name)
  | evaluate (text : String) : Reads (.evaluate (.raw text))
  | values : Reads .values

theorem Serves.request (h : Serves constants e) (hkeys : (constants.map (·.1)).Nodup) {r : Request}
    (hr : r.Reads) : Serves constants (r.run e) := by
  cases hr with
  | lookup name =>
      obtain ⟨e', hrun, h'⟩ := h.exec_lookup name
      rwa [Request.run, hrun]
  | evaluate text =>
      obtain ⟨_, e', hrun, h', -⟩ := h.exec_evaluate text
      rwa [Request.run, hrun]
  | values =>
      obtain ⟨e', hrun, h'⟩ := h.run_values hkeys
      rwa [Request.run, hrun]

theorem Serves.requests (h : Serves constants e) (hkeys : (constants.map (·.1)).Nodup)
    {requests : List Request} (hreads : ∀ r ∈ requests, r.Reads) :
    Serves constants (Request.runAll requests e) := by
  induction requests generalizing e with
  | nil => exact h
  | cons r requests ih =>
      obtain ⟨hr, hreads⟩ := List.forall_mem_cons.1 hreads
      exact ih (h.request hkeys hr) hreads

theorem serves_ofConstants (source : List Char) :
    Serves (parseConstants source) (ofConstants (parseConstants source)) where
  literals h := (isConstant_of_mem_parseConstants (Styled.mem_of_get? h)).2
  bindings := rfl
  known h := by simp [ofConstants, Entries.get?] at h

inductive Denotes (literal : String) : Scalar → Prop
  | string (text : String) (quoted : literal.toList.head?.any isQuote = true) : Denotes literal (.string text)
  | number (n : Number) (unquoted : literal.toList.head?.any isQuote = false) : Denotes literal (.number n)

theorem denotes_literalValue (literal : String) : Denotes literal (literalValue literal.toList) := by
  rw [literalValue]
  split_ifs with hquote
  · exact .string _ hquote
  · exact .number _ (by simpa using hquote)

/-- Whatever was read before, each constant of a source has one value, a string or a number as its
literal starts, which its name leads to, an expression that is its name, and the values of all bindings. -/
theorem constants_evaluable (source : List Char) {requests : List Request} (hreads : ∀ r ∈ requests, r.Reads)
    {e : Evaluator} (he : e = Request.runAll requests (ofConstants (parseConstants source))) :
    (∀ name literal, (name, literal) ∈ parseConstants source →
      Denotes literal (literalValue literal.toList) ∧
      (exec (lookup name) e).1 = .ok (.scalar (literalValue literal.toList)) ∧
      ∀ before after : String, (∀ c ∈ before.toList, isBlank c = true) →
        (∀ c ∈ after.toList, isBlank c = true) →
        (exec (evaluate (.raw (before ++ name ++ after))) e).1 =
          .ok (.scalar (literalValue literal.toList))) ∧
    (values.run e).1 = (parseConstants source).map fun (name, literal) =>
      (name, .scalar (literalValue literal.toList)) := by
  have hkeys := nodup_keys_parseConstants source
  have h : Serves (parseConstants source) e := he ▸ (serves_ofConstants source).requests hkeys hreads
  refine ⟨fun name literal hmem => ?_, ?_⟩
  · have hanswer : answer (parseConstants source) name = .ok (.scalar (literalValue literal.toList)) := by
      simp [answer, Entries.get?_of_mem hkeys hmem]
    refine ⟨denotes_literalValue literal, ?_, fun before after hbefore hafter => ?_⟩
    · obtain ⟨e', hlookup, -⟩ := h.exec_lookup name
      rw [hlookup, hanswer]
    · have hname := (isConstant_of_mem_parseConstants hmem).1
      have hshape : rawShape (trim (before ++ name ++ after).toList) = .name name := by
        have htrim := (isVariable_unpadded hname).trim_eq hbefore hafter
        rw [String.toList_append, String.toList_append, List.append_assoc, htrim, rawShape_variable hname,
          String.ofList_toList]
      obtain ⟨result, e', hexec, -, hresult⟩ := h.exec_evaluate (before ++ name ++ after)
      rw [hexec, hresult name hshape, hanswer]
  · obtain ⟨e', hrun, -⟩ := h.run_values hkeys
    rw [hrun]

def sizedSource : List Char := "const width = -١٢.5e+1;\nexport let unit = 'p\\'x'\nvar unit = \"px\"".toList

theorem sizedSource_evaluable :
    parseConstants sizedSource = [("width", "-١٢.5e+1"), ("unit", "\"px\"")] ∧
      (exec (evaluate (.raw "\t unit\n"))
        (Request.runAll [.values, .lookup "width"] (ofConstants (parseConstants sizedSource)))).1 =
          .ok (.scalar (.string "px")) := by
  have hread : parseConstants sizedSource = [("width", "-١٢.5e+1"), ("unit", "\"px\"")] := by decide +kernel
  have hreads : ∀ r ∈ [Request.values, .lookup "width"], r.Reads := by
    simp only [List.forall_mem_cons, List.not_mem_nil, false_implies, implies_true, and_true]
    exact ⟨.values, .lookup "width"⟩
  obtain ⟨hconstants, -⟩ := constants_evaluable sizedSource hreads rfl
  obtain ⟨-, -, hraw⟩ := hconstants "unit" "\"px\"" (by rw [hread]; simp)
  have hvalue : literalValue "\"px\"".toList = .string "px" :=
    congrArg Scalar.string (by decide +kernel)
  have hblanks : "\t ".toList.all isBlank = true ∧ "\n".toList.all isBlank = true := by decide
  rw [List.all_eq_true, List.all_eq_true] at hblanks
  exact ⟨hread, by rw [← hvalue]; exact hraw "\t " "\n" hblanks.1 hblanks.2⟩

end CssExtract.Eval
