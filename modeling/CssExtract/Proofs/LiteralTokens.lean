import CssExtract.Proofs.HeadGrammar
import CssExtract.Proofs.StringLiterals

namespace CssExtract.Script

open Text

def replace (c : Char) (text : List Char) (s : List Char) : List Char :=
  s.flatMap fun x => if x = c then text else [x]

def replaceAll (rules : List (Char × List Char)) (s : List Char) : List Char :=
  rules.foldl (fun s rule => replace rule.1 rule.2 s) s

def replaced : List (Char × List Char) → Char → List Char
  | [], x => [x]
  | rule :: rules, x => if x = rule.1 then rule.2 else replaced rules x

/-- No rule applies to what an earlier one has put in. -/
def Settled (rules : List (Char × List Char)) : Prop :=
  rules.Pairwise fun rule later => later.1 ∉ rule.2

variable {q c : Char} {s g g' a b r : List Char} {rules : List (Char × List Char)} {ops ops' : List Op}

theorem replaced_of_notMem (h : ∀ rule ∈ rules, rule.1 ≠ c) : replaced rules c = [c] := by
  induction rules with
  | nil => rfl
  | cons rule rules ih =>
      obtain ⟨hrule, hrules⟩ := List.forall_mem_cons.1 h
      rw [replaced, if_neg (Ne.symm hrule), ih hrules]

theorem flatMap_replaced (h : ∀ rule ∈ rules, rule.1 ∉ s) : s.flatMap (replaced rules) = s := by
  induction s with
  | nil => rfl
  | cons c s ih =>
      have hc : replaced rules c = [c] := by
        apply replaced_of_notMem
        rintro rule hrule rfl
        exact h rule hrule List.mem_cons_self
      have hs : s.flatMap (replaced rules) = s :=
        ih fun rule hrule hmem => h rule hrule (List.mem_cons_of_mem c hmem)
      rw [List.flatMap_cons, hc, hs, List.singleton_append]

/-- Replacing in the whole text, rule by rule, is replacing each character on its own. -/
theorem Settled.replaceAll_eq (h : Settled rules) (s : List Char) :
    replaceAll rules s = s.flatMap (replaced rules) := by
  induction rules generalizing s with
  | nil => simp [replaceAll, replaced]
  | cons rule rules ih =>
      obtain ⟨hrule, hrules⟩ := List.pairwise_cons.1 h
      have hstep : replaceAll (rule :: rules) s = replaceAll rules (replace rule.1 rule.2 s) := rfl
      rw [hstep, ih hrules, replace, List.flatMap_assoc]
      congr 1
      funext x
      rw [replaced]
      split_ifs
      · exact flatMap_replaced hrule
      · exact List.flatMap_singleton ..

def escapes (q : Char) : List (Char × List Char) :=
  [('\\', ['\\', '\\']), (q, ['\\', q]), ('\n', ['\\', 'n']), ('\r', ['\\', 'r']), ('\t', ['\\', 't'])]

theorem settled_escapes (hq : isQuote q = true) : Settled (escapes q) := by
  simp only [isQuote, Bool.or_eq_true, decide_eq_true_eq] at hq
  rcases hq with rfl | rfl <;> simp [Settled, escapes]

theorem replaced_escapes (q c : Char) : replaced (escapes q) c = escapeLiteral q c := by
  simp only [escapes, replaced, escapeLiteral, Bool.or_eq_true, decide_eq_true_eq]
  split_ifs <;> simp_all

theorem printString_eq_replaceAll (hq : isQuote q = true) (s : List Char) :
    printString q s = q :: replaceAll (escapes q) s ++ [q] := by
  rw [(settled_escapes hq).replaceAll_eq, funext (replaced_escapes q), printString]

theorem skipString?_printed (hq : isQuote q = true) (s before rest : List Char) :
    skipString? (before ++ (printString q s ++ rest)) before.length =
      some (.ok (before.length + (printString q s).length)) := by
  have hskip := closes_printed hq s (before.length + 1) (.string q) rest rfl
  rw [skipString?, List.drop_left, printString, List.cons_append, List.cons_append]
  simp only [hskip, List.length_cons]
  rw [Nat.add_assoc, Nat.add_comm 1]

theorem stringLength?_printed (hq : isQuote q = true) (s rest : List Char) :
    stringLength? (printString q s ++ rest) = some (printString q s).length := by
  have htail := stringTail?_printed hq s rest
  have hquote : (decide (q = '"') || decide (q = '\'')) = true := by
    simpa [isQuote, or_comm] using hq
  rw [printString, List.cons_append, List.cons_append, List.append_assoc, List.singleton_append,
    stringLength?, if_pos hquote, htail]
  simp

theorem OpsText.gap (hg : ∀ c ∈ g, isGap c = true) (h : OpsText r ops) : OpsText (g ++ r) ops := by
  have hboth {g' : List Char} (hg' : ∀ c ∈ g', isGap c = true) : ∀ c ∈ g ++ g', isGap c = true :=
    List.forall_mem_append.2 ⟨hg, hg'⟩
  cases h with
  | nil hg' => exact .nil (hboth hg')
  | member hg' hname hops hrest =>
      rw [← List.append_assoc]
      exact .member (hboth hg') hname hops hrest
  | call hg' hcall hrest =>
      rw [← List.append_assoc]
      exact .call (hboth hg') hcall hrest

theorem OpsText.append (h : OpsText a ops) (h' : OpsText b ops') : OpsText (a ++ b) (ops ++ ops') := by
  induction h with
  | nil hg => exact h'.gap hg
  | member hg hg' hname hrest ih =>
      simp only [List.append_assoc, List.cons_append]
      exact .member hg hg' hname ih
  | call hg hcall hrest ih =>
      simp only [List.append_assoc, List.cons_append]
      exact .call hg hcall ih

theorem isGap_of_isQuote (hq : isQuote q = true) : isGap q = false := by
  simp only [isQuote, Bool.or_eq_true, decide_eq_true_eq] at hq
  rcases hq with rfl | rfl <;> decide

theorem callText_printed (hq : isQuote q = true) (s : List Char) (hg : ∀ c ∈ g, isGap c = true)
    (hg' : ∀ c ∈ g', isGap c = true) :
    CallText (g ++ (printString q s ++ g')) [⟨String.ofList (printString q s),
      .constant (.string (String.ofList (unquoteArgument (printString q s))))⟩] := by
  have hterminal := terminal?_printed hq s []
  have htoken : ArgumentToken [] [] .string q (s.flatMap (escapeLiteral q) ++ [q]) [] := by
    refine ⟨isGap_of_isQuote hq, ?_, .keeps rfl rfl, fun _ => by decide⟩
    rw [printString, List.append_nil] at hterminal
    rw [List.append_nil]
    exact hterminal
  exact .given (.last hg (.last htoken) hg')

/-- The literal `q :: … ++ [q]` of a string stands for one token, whoever reads it. -/
structure OneToken (q : Char) (s literal : List Char) : Prop where
  escaped : literal = q :: s.flatMap (escapeLiteral q) ++ [q]
  replaced : literal = q :: replaceAll (escapes q) s ++ [q]
  scanned : ∀ before rest, skipString? (before ++ (literal ++ rest)) before.length =
    some (.ok (before.length + literal.length))
  token : ∀ rest, terminal? (literal ++ rest) = some (.string, literal.length)
  argument : ∀ {g name front g₁ g₂ rest : List Char} {before after : List Op},
    (∀ c ∈ g ++ g₁ ++ g₂, isGap c = true) → IsName name → OpsText front before → OpsText rest after →
      readHeadText (g ++ (name ++ (front ++ '(' :: (g₁ ++ (literal ++ g₂) ++ ')' :: rest)))) =
        .ok ⟨String.ofList name, before ++ .call [⟨String.ofList literal,
          .constant (.string (String.ofList (unquoteArgument literal)))⟩] :: after⟩
  matched : ∀ rest, stringLength? (literal ++ rest) = some literal.length
  evaluated : ∀ e : Eval.Evaluator, exec (Eval.Evaluator.evaluate (.raw (String.ofList literal))) e =
    (.ok (.scalar (.string (String.ofList (Eval.Evaluator.unquote literal)))), e)

theorem oneToken_printString (hq : isQuote q = true) (s : List Char) : OneToken q s (printString q s) where
  escaped := rfl
  replaced := printString_eq_replaceAll hq s
  scanned := skipString?_printed hq s
  token := terminal?_printed hq s
  argument {g name front g₁ g₂ rest before after} hgaps hname hfront hrest := by
    simp only [List.forall_mem_append] at hgaps
    obtain ⟨⟨hg, hg₁⟩, hg₂⟩ := hgaps
    have hcall := OpsText.call (g := []) (by simp) (callText_printed hq s hg₁ hg₂) hrest
    exact readHeadText_eq_ok_iff.2 (.mk hg hname (hfront.append hcall) (by simp))
  matched := stringLength?_printed hq s
  evaluated := exec_evaluate_literal hq s

/-- The code of a string is one token to every reader. -/
theorem string_oneToken (s : String) (q : Char) (hq : isQuote q = true) :
    OneToken q s.toList (Node.string s q).code.toList := by
  have hcode : (Node.string s q).code.toList = printString q s.toList := by
    simp [Node.code, Node.print]
  rw [hcode]
  exact oneToken_printString hq s.toList

theorem brokenOut_oneToken :
    (Node.string "');\n\\" '\'').code = "'\\');\\n\\\\'" ∧ isQuote '\'' = true ∧
      OneToken '\'' "');\n\\".toList (Node.string "');\n\\" '\'').code.toList :=
  ⟨by decide +kernel, rfl, string_oneToken "');\n\\" '\'' rfl⟩

end CssExtract.Script
