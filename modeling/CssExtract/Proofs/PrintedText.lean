import CssExtract.Proofs.Balance
import CssExtract.Proofs.TokenText
import CssExtract.Script.Print

namespace CssExtract.Script

open Text

variable {a b r : List Char} {c q : Char} {t : Terminal}

/-- Scanner and grammar read through the text within every bracket. -/
structure Solid (a : List Char) : Prop where
  neutral : Neutral a
  within : ∀ r, Within a r

/-- As `Solid`, if a character that ends tokens follows. -/
structure Inner (a : List Char) : Prop where
  neutral : Neutral a
  within : ∀ c r, EndsToken c → Within a (c :: r)

theorem Solid.inner (h : Solid a) : Inner a := ⟨h.neutral, fun c r _ => h.within (c :: r)⟩

theorem Solid.append (ha : Solid a) (hb : Solid b) : Solid (a ++ b) :=
  ⟨ha.neutral.append hb.neutral, fun r => (ha.within _).append (hb.within r)⟩

theorem Solid.append_inner (ha : Solid a) (hb : Inner b) : Inner (a ++ b) :=
  ⟨ha.neutral.append hb.neutral, fun c r hc => (ha.within _).append (hb.within c r hc)⟩

theorem Inner.append (ha : Inner a) (hb : Inner (c :: b)) (hc : EndsToken c) : Inner (a ++ c :: b) :=
  ⟨ha.neutral.append hb.neutral, fun d r hd => (ha.within c _ hc).append (hb.within d r hd)⟩

theorem solid_of_blanks (h : ∀ c ∈ a, c = ' ' ∨ c = '\n') : Solid a where
  neutral := .of_all_inert fun c hc => by rcases h c hc with rfl | rfl <;> decide
  within := .gaps fun c hc => by rcases h c hc with rfl | rfl <;> decide

theorem solid_comma : Solid [','] where
  neutral := .of_inert (by decide)
  within r := .token (by decide) (terminal?_bracket rfl (by decide) r).2 rfl rfl

theorem escapeLiteral_cases (hq : isQuote q = true) (c : Char) :
    (∃ d, escapeLiteral q c = ['\\', d] ∧ d ≠ '\n') ∨
      escapeLiteral q c = [c] ∧ c ≠ '\\' ∧ c ≠ q ∧ c ≠ '\n' := by
  have hline : q ≠ '\n' := by
    rintro rfl
    simp [isQuote] at hq
  simp only [escapeLiteral]
  split_ifs with hback hnew hreturn htab
  · simp only [Bool.or_eq_true, decide_eq_true_eq] at hback
    refine .inl ⟨c, rfl, ?_⟩
    rcases hback with rfl | rfl
    · decide
    · exact hline
  · exact .inl ⟨'n', rfl, by decide⟩
  · exact .inl ⟨'r', rfl, by decide⟩
  · exact .inl ⟨'t', rfl, by decide⟩
  · simp only [Bool.or_eq_true, decide_eq_true_eq, not_or] at hback
    exact .inr ⟨rfl, hback.1, hback.2, hnew⟩

theorem stringText_printed (hq : isQuote q = true) (s : List Char) :
    StringText q (s.flatMap (escapeLiteral q)) := by
  induction s with
  | nil => exact .nil
  | cons c s ih =>
      rw [List.flatMap_cons]
      rcases escapeLiteral_cases hq c with ⟨d, hd, -⟩ | ⟨hc, hescape, hquote, hline⟩
      · rw [hd]
        exact .escaped d ih
      · rw [hc]
        exact .char hquote hescape hline ih

theorem closes_printed (hq : isQuote q = true) (s : List Char) :
    Closes (.string q) (s.flatMap (escapeLiteral q) ++ [q]) := (stringText_printed hq s).closes hq

theorem stringTail?_printed (hq : isQuote q = true) (s r : List Char) :
    stringTail? q (s.flatMap (escapeLiteral q) ++ q :: r) =
      some (s.flatMap (escapeLiteral q) ++ [q]).length := by
  have hback := ne_backslash_of_isQuote hq
  induction s with
  | nil => simp [stringTail?_cons hback]
  | cons c s ih =>
      rw [List.flatMap_cons]
      rcases escapeLiteral_cases hq c with ⟨d, hd, hline⟩ | ⟨hc, hescape, hquote, hline⟩
      · rw [hd]
        simp [stringTail?, hline, ih]
      · rw [hc]
        simp only [List.cons_append, List.nil_append, stringTail?_cons hescape, hquote, hline, if_false,
          ih, Option.map_some, List.length_cons]

theorem terminal?_printed (hq : isQuote q = true) (s r : List Char) :
    terminal? (printString q s ++ r) = some (.string, (printString q s).length) := by
  rw [printString, List.cons_append, List.cons_append, terminal?_quote hq, List.append_assoc,
    List.singleton_append, stringTail?_printed hq]
  simp

theorem solid_string (hq : isQuote q = true) (s : List Char) : Solid (printString q s) where
  neutral := (Part.string hq (closes_printed hq s)).neutral
  within r := by
    have hterminal := terminal?_printed hq s r
    refine .token ?_ hterminal rfl rfl
    simp only [isQuote, Bool.or_eq_true, decide_eq_true_eq] at hq
    rcases hq with rfl | rfl <;> decide

theorem within_name (ha : IsName a) (hr : Ends r.head?) : Within a r := by
  have hterminal := terminal?_name ha hr
  obtain ⟨d, a, rfl, hd, -⟩ := ha
  exact .token (plain_of_isNameStart hd).1 hterminal rfl rfl

theorem inner_name (ha : IsName a) : Inner a :=
  ⟨ha.neutral, fun c r hc => within_name ha (by simpa [Ends] using hc.name)⟩

theorem solid_group {opener closer : Char} {o k : Terminal} (hopen : punctuation? opener = some o)
    (hclose : punctuation? closer = some k) (hpair : o.closer? = some k)
    (hcloser : closerOf? opener = some closer) (ha : Inner a) : Solid (opener :: (a ++ [closer])) := by
  have hk : isCloser closer = true := by
    simp only [closerOf?] at hcloser
    split at hcloser
    all_goals first | obtain rfl := Option.some.inj hcloser; rfl | simp at hcloser
  have hend : EndsToken closer := by
    simp only [isCloser, Bool.or_eq_true, decide_eq_true_eq] at hk
    rcases hk with (rfl | rfl) | rfl <;>
      exact ⟨by decide, by constructor <;> decide, by decide⟩
  exact ⟨.group hcloser (ha.neutral.closes hk), fun r => .group hopen hclose hpair (ha.within _ _ hend)⟩

theorem solid_parens (ha : Inner a) : Solid (parenthesised a) :=
  solid_group rfl rfl rfl rfl ha

theorem solid_braces (ha : Inner a) : Solid ('{' :: (a ++ ['}'])) :=
  solid_group rfl rfl rfl rfl ha

theorem solid_brackets (ha : Inner a) : Solid ('[' :: (a ++ [']'])) :=
  solid_group rfl rfl rfl rfl ha

theorem inner_nil : Inner [] := (solid_of_blanks (by simp)).inner

theorem solid_colon : Solid [':', ' '] where
  neutral := .of_all_inert (List.all_eq_true.1 (by decide))
  within r := .append (b := [' ']) (.token (a := []) (t := .operator) (by decide)
    (by rw [terminal?_plain (by decide) (by decide), numberLength?_eq_none (by decide) (by decide)]
        simp [nameLength?, isNameStart, isOperator]) rfl rfl) (.gap (by decide) r)

theorem solid_key (ha : IsName a) : Solid (a ++ [':', ' ']) where
  neutral := ha.neutral.append solid_colon.neutral
  within r := (within_name ha (r := ':' :: ' ' :: r) (by simp [Ends]; decide)).append (solid_colon.within r)

theorem endsToken_comma : EndsToken ',' := ⟨by decide, by constructor <;> decide, by decide⟩

theorem endsToken_newline : EndsToken '\n' := ⟨by decide, by constructor <;> decide, by decide⟩

theorem endsToken_brace : EndsToken '}' := ⟨by decide, by constructor <;> decide, by decide⟩

theorem inner_intercalate {items : List (List Char)} (h : ∀ x ∈ items, Inner x)
    (hc : c = ' ' ∨ c = '\n') : Inner ([',', c].intercalate items) := by
  induction items with
  | nil => exact inner_nil
  | cons x items ih =>
      obtain ⟨hx, hitems⟩ := List.forall_mem_cons.1 h
      cases items with
      | nil => simpa using hx
      | cons y items =>
          rw [List.intercalate_cons_cons, List.append_assoc]
          have hcomma : Solid [',', c] :=
            solid_comma.append (b := [c]) (solid_of_blanks (by simpa using hc))
          exact hx.append (hcomma.append_inner (ih hitems)) endsToken_comma

theorem solid_array {items : List (List Char)} (h : ∀ x ∈ items, Inner x) :
    Solid ('[' :: commaSeparated items ++ [']']) :=
  solid_brackets (inner_intercalate h (.inl rfl))

theorem solid_indent (level : Nat) : Solid (indent level) :=
  solid_of_blanks fun _ hc => .inl (List.eq_of_mem_replicate hc)

/-- Printed lines are a group of braces. -/
theorem exists_printLines {lines : List (List Char)} (h : ∀ l ∈ lines, Inner l) (level : Nat) :
    ∃ x, Inner x ∧ printLines level [',', '\n'] lines = '{' :: (x ++ ['}']) := by
  simp only [printLines]
  split_ifs
  · exact ⟨[], inner_nil, rfl⟩
  · have hlines : Inner ([',', '\n'].intercalate (lines.map (indent (level + 1) ++ ·))) := by
      refine inner_intercalate (fun x hx => ?_) (.inr rfl)
      obtain ⟨l, hl, rfl⟩ := List.mem_map.1 hx
      exact (solid_indent _).append_inner (h l hl)
    have hfirst : Solid ['\n'] := solid_of_blanks (by simp)
    have hlast : Solid ('\n' :: indent level) := hfirst.append (solid_indent level)
    exact ⟨_, hfirst.append_inner (hlines.append hlast.inner endsToken_newline), by simp⟩

theorem solid_lines {lines : List (List Char)} (h : ∀ l ∈ lines, Inner l) (level : Nat) :
    Solid (printLines level [',', '\n'] lines) := by
  obtain ⟨x, hx, hprinted⟩ := exists_printLines h level
  rw [hprinted]
  exact solid_braces hx

def Enclosed (x : List Char) : Prop := skipGroup? ('(' :: x ++ [')']) 0 = some (.ok (x.length + 2))

instance (x : List Char) : Decidable (Enclosed x) := inferInstanceAs (Decidable (_ = _))

theorem Enclosed.closes {x : List Char} (h : Enclosed x) : Closes (.group ')') (x ++ [')']) := by
  have hskip : skip 1 [.group ')'] (x ++ [')']) = .ok (x.length + 2) := by
    simpa [Enclosed, skipGroup?, closerOf?] using h
  refine closes_of_skip (i := 1) (r := []) ?_ (.inr (by simp))
  rw [List.append_nil, hskip]
  exact congrArg Except.ok (by simp; omega)

/-- An expression that a thunk can hold is one group between parentheses for the scanner, and has
only tokens and brackets that the grammar can read. -/
structure Wrappable (x : List Char) : Prop where
  enclosed : Enclosed x
  legible : Legible x

instance (x : List Char) : Decidable (Wrappable x) :=
  decidable_of_iff (Enclosed x ∧ Legible x) ⟨fun h => ⟨h.1, h.2⟩, fun h => ⟨h.1, h.2⟩⟩

theorem Wrappable.solid_parens {x : List Char} (ha : Solid a) (h : Wrappable x) :
    Solid (parenthesised (a ++ x)) where
  neutral := by
    refine .group rfl ?_
    rw [List.append_eq, List.append_assoc]
    exact ha.neutral.closes_append h.enclosed.closes
  within r := .group rfl rfl rfl ((ha.within _).append (h.legible.within endsToken_paren r))

theorem solid_arrow : Solid (parenthesised [] ++ " => ".toList) := by
  have hmark : Solid ['=', '>', ' '] :=
    ⟨.of_all_inert (List.all_eq_true.1 (by decide)), fun r => .append (a := ['=', '>']) (b := [' '])
      (.token (a := ['>']) (t := .arrow) (by decide) rfl rfl rfl) (.gap (by decide) r)⟩
  exact (solid_parens inner_nil).append ((solid_of_blanks (a := [' ']) (by simp)).append hmark)

theorem asBody_raw (source : String) (printed : List Char) :
    (Node.raw source).asBody printed = parenthesised printed ∨
      (Node.raw source).asBody printed = printed := by
  simp only [Node.asBody]
  split_ifs
  · exact .inl rfl
  · exact .inr rfl

theorem solid_thunk {source : String} (h : Wrappable (trim source.toList)) (level : Nat) :
    Solid ((Node.call (.arrow [] (.raw source)) []).print level) := by
  have hcall : Solid (parenthesised []) := Script.solid_parens inner_nil
  simp only [Node.print, printAll, Node.asCallee, Node.isCallee, commaSeparated, List.map_nil,
    List.intercalate_nil, Bool.false_eq_true, if_false]
  refine Solid.append ?_ hcall
  rcases asBody_raw source (trim source.toList) with hbody | hbody
  · rw [hbody]
    have hinner : Solid (parenthesised (trim source.toList)) :=
      h.solid_parens (a := []) (solid_of_blanks (by simp))
    exact Script.solid_parens (solid_arrow.append hinner).inner
  · rw [hbody]
    exact h.solid_parens solid_arrow

end CssExtract.Script
