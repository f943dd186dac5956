import CssExtract.Proofs.HeadNames
import CssExtract.Proofs.PrintedText

namespace CssExtract.Script

open Text

variable {s a b r : List Char} {c : Char} {t k : Terminal} {head : Head} {next : Option Char}

/-- In front of `r` the text is read on in the argument of a call, and is not all of it. -/
def Along (a r : List Char) : Prop :=
  ∀ (s : List Char) (head : Head) (arguments : List Argument) (current : Option OpenArgument)
    (last i : Nat) (previous : Option Terminal), ∃ current' last' previous',
      readTokens s (.call head arguments current []) last (tokensFrom i 1 previous 0 (a ++ r)) =
        readTokens s (.call head arguments (some current') []) last'
          (tokensFrom (i + a.length) 1 previous' 0 r)

namespace Along

theorem append (ha : Along a (b ++ r)) (hb : Along b r) : Along (a ++ b) r := by
  intro s head arguments current last i previous
  obtain ⟨current', last', previous', ha⟩ := ha s head arguments current last i previous
  obtain ⟨current'', last'', previous'', hb⟩ :=
    hb s head arguments (some current') last' (i + a.length) previous'
  refine ⟨current'', last'', previous'', ?_⟩
  rw [List.append_assoc, ha, hb, List.length_append, Nat.add_assoc]

theorem gap (hc : isGap c = true) (ha : Along a r) : Along (c :: a) r := by
  intro s head arguments current last i previous
  obtain ⟨current', last', previous', ha⟩ := ha s head arguments current last (i + 1) previous
  refine ⟨current', last', previous', ?_⟩
  rw [List.cons_append, tokensFrom_gap hc, ha, List.length_cons, Nat.add_right_comm, Nat.add_assoc]

theorem token (hgap : isGap c = false) (ht : terminal? (c :: (a ++ r)) = some (t, a.length + 1))
    (hopen : t.closer? = none) (hclose : t.isCloser = false) (hcomma : t ≠ .comma) :
    Along (c :: a) r := by
  intro s head arguments current last i previous
  refine ⟨extend current ⟨some t, c :: a, i⟩ [.token t (c :: a)], i, some t, ?_⟩
  have hparen : t ≠ .closeParen := by
    rintro rfl
    simp [Terminal.isCloser] at hclose
  have hdepth : depthAfter 1 t = 1 := by simp [depthAfter, hopen, hclose]
  have hstep : HeadState.step? s (.call head arguments current []) ⟨some t, c :: a, i⟩ t =
      some (.call head arguments (some (extend current ⟨some t, c :: a, i⟩ [.token t (c :: a)])) []) := by
    cases t <;> cases current <;> simp_all [HeadState.step?]
  rw [List.cons_append, tokensFrom_token (.inl (by omega)) hgap ht, hdepth]
  simp only [readTokens, hstep, List.length_cons]

theorem group {opener closer : Char} {o : Terminal} (hopen : punctuation? opener = some o)
    (hclose : punctuation? closer = some k) (hpair : o.closer? = some k)
    (ha : Within a (closer :: r)) : Along (opener :: (a ++ [closer])) r := by
  intro s head arguments current last i previous
  obtain ⟨hk, hknone⟩ := Terminal.isCloser_of_closer? hpair
  obtain ⟨hodot, hkdot⟩ := Terminal.ne_dot_of_closer? hpair
  obtain ⟨current', last', previous', ha⟩ := ha s head arguments
    (extend current ⟨some o, [opener], i⟩ [.group]) k [] i (i + 1) (some o) hk
  refine ⟨extend (some current') ⟨some k, [closer], i + 1 + a.length⟩ [], i + 1 + a.length, some k, ?_⟩
  have hstep : HeadState.step? s (.call head arguments current []) ⟨some o, [opener], i⟩ o =
      some (.call head arguments (some (extend current ⟨some o, [opener], i⟩ [.group])) [k]) := by
    cases o <;> cases current <;> simp_all [HeadState.step?, Terminal.closer?]
  have hodepth : depthAfter 1 o = 2 := by simp [depthAfter, hpair]
  have hkdepth : depthAfter 2 k = 1 := by simp [depthAfter, hknone, hk]
  rw [List.cons_append, List.append_assoc, List.singleton_append, tokensFrom_bracket hopen hodot,
    hodepth]
  simp only [readTokens, hstep]
  simp only [List.length_nil, Nat.zero_add] at ha
  rw [ha, tokensFrom_bracket hclose hkdot, readTokens_close rfl hknone, hkdepth]
  congr 2
  simp
  omega

end Along

theorem along_name (ha : IsName a) (hr : Ends r.head?) : Along a r := by
  have hterminal := terminal?_name ha hr
  obtain ⟨d, a, rfl, hd, -⟩ := ha
  exact .token (plain_of_isNameStart hd).1 hterminal rfl rfl (by decide)

theorem along_string {q : Char} (hq : isQuote q = true) (v : List Char) :
    Along (printString q v) r := by
  have hterminal := terminal?_printed hq v r
  refine .token ?_ hterminal rfl rfl (by decide)
  simp only [isQuote, Bool.or_eq_true, decide_eq_true_eq] at hq
  rcases hq with rfl | rfl <;> decide

theorem along_function : Along "() => {}".toList r := by
  have hparens : Along ('(' :: ([] ++ [')'])) (" => {}".toList ++ r) :=
    .group rfl rfl rfl (.nil _)
  have harrow : Along "=>".toList (" {}".toList ++ r) :=
    .token (a := ['>']) (t := .arrow) (by decide) rfl rfl rfl (by decide)
  have hbraces : Along ('{' :: ([] ++ ['}'])) r :=
    .group rfl rfl rfl (.nil _)
  exact hparens.append ((harrow.append (hbraces.gap (c := ' ') (by decide))).gap (c := ' ') (by decide))

theorem readTokens_call (head : Head) (ha : Along a (')' :: r)) (last i : Nat)
    (previous : Option Terminal) :
    ∃ argument last' previous',
      readTokens s (.chain head) last (tokensFrom i 0 previous 0 (parenthesised a ++ r)) =
        readTokens s (.chain ⟨head.callee, head.ops ++ [.call [argument]]⟩) last'
          (tokensFrom (i + (parenthesised a).length) 0 previous' 0 r) := by
  obtain ⟨current, last', previous', ha⟩ := ha s head [] none i (i + 1) (some .openParen)
  refine ⟨current.close s, i + 1 + a.length, some .closeParen, ?_⟩
  rw [parenthesised, List.cons_append, List.cons_append, List.append_assoc, List.singleton_append,
    tokensFrom_bracket rfl (by decide)]
  simp only [readTokens, HeadState.step?]
  rw [show depthAfter 0 .openParen = 1 from rfl, ha, tokensFrom_bracket rfl (by decide)]
  simp only [readTokens, HeadState.step?, List.nil_append]
  congr 2
  simp
  omega

/-- A name that is called twice, with one argument each time, is a head of two calls. -/
theorem readHeadText_calls {tag : List Char} (htag : IsName tag)
    (ha : Along a (')' :: parenthesised b)) (hb : Along b [')']) :
    ∃ x y, readHeadText (tag ++ (parenthesised a ++ parenthesised b)) =
      .ok ⟨String.ofList tag, [.call [x], .call [y]]⟩ := by
  rw [readHeadText_name htag (by simp [parenthesised, Ends]; decide)]
  obtain ⟨x, last, previous, ha⟩ := readTokens_call
    (s := tag ++ (parenthesised a ++ parenthesised b)) ⟨String.ofList tag, []⟩ ha 0 tag.length
    (some .name)
  obtain ⟨y, last', previous', hb⟩ := readTokens_call
    (s := tag ++ (parenthesised a ++ parenthesised b)) ⟨String.ofList tag, [.call [x]]⟩ hb last
    (tag.length + (parenthesised a).length) previous
  rw [List.append_nil] at hb
  refine ⟨x, y, ?_⟩
  rw [ha]
  simp only [List.nil_append]
  rw [hb]
  simp [tokensFrom, readTokens]

theorem ops_calls (ha : Neutral a) (hb : Neutral b) :
    Ops next 0 false (parenthesised a ++ parenthesised b) 2 true := by
  have hclose : isCloser ')' = true := rfl
  have hsecond : Ops next 1 true ([] ++ '(' :: (b ++ [')'] ++ [])) 2 true :=
    .call .nil (hb.closes hclose) (.nil 2 true)
  have hcalls : Ops next 0 false ([] ++ '(' :: (a ++ [')'] ++ _)) 2 true :=
    .call .nil (ha.closes hclose) hsecond
  simpa [parenthesised] using hcalls

end CssExtract.Script
