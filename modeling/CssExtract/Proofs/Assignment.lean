import CssExtract.Proofs.Bindings
import CssExtract.Proofs.HeadText
import Mathlib.Data.List.Infix

namespace CssExtract.Text

variable {a b g r s t name : List Char} {c : Char} {n : Nat} {p : Char → Bool}

theorem not_isNamePart_of_isBlank (h : isBlank c = true) : isNamePart c = false := by
  have hapart : ∀ i ∈ wordTable, ∀ b ∈ blankTable, i.2 < b.1 ∨ b.2 < i.1 := by decide +kernel
  rw [Bool.eq_false_iff]
  intro hpart
  have hpart : isAsciiNamePart c = true ∨ wordTable.contains c = true := by
    simp only [isNamePart, isWord, Bool.or_eq_true, Bool.and_eq_true] at hpart
    simp only [isAsciiNamePart, Bool.or_eq_true]
    rcases hpart with (hword | hword) | hdollar
    · exact .inl (.inl hword)
    · exact .inr hword.2
    · exact .inl (.inr hdollar)
  rcases hpart with hpart | hpart
  · simp [Script.not_isBlank_of_isAsciiNamePart hpart] at h
  · obtain ⟨i, hi, hlow, hhigh⟩ := Intervals.contains_iff.1 hpart
    obtain ⟨b, hb, hlow', hhigh'⟩ := isBlank_iff.1 h
    have := hapart i hi b hb
    omega

theorem not_isBlank_of_isNamePart (h : isNamePart c = true) : isBlank c = false := by
  rw [Bool.eq_false_iff]
  exact fun hblank => by simp [not_isNamePart_of_isBlank hblank] at h

theorem trimStart_append (hg : ∀ c ∈ g, isBlank c = true) (hr : r.head?.any isBlank = false) :
    trimStart (g ++ r) = r := by
  rw [trimStart, List.dropWhile_append_of_pos hg]
  cases r with
  | nil => rfl
  | cons c r => exact trimStart_eq_self (by simpa using hr)

theorem any_getLast?_append (hne : b ≠ []) (hb : ∀ c ∈ b, p c = false) (a : List Char) :
    (a ++ b).getLast?.any p = false := by
  rw [List.getLast?_append_of_ne_nil a hne, List.getLast?_eq_some_getLast hne]
  exact hb _ (List.getLast_mem hne)

theorem append_inj_of_all (h : s ++ a = t ++ b) (ha : ∀ c ∈ a, p c = true) (hb : ∀ c ∈ b, p c = true)
    (hs : s.getLast?.any p = false) (ht : t.getLast?.any p = false) : s = t ∧ a = b := by
  obtain ⟨u, rfl, rfl⟩ | ⟨u, rfl, rfl⟩ := List.append_eq_append_iff.1 h
  all_goals
    obtain rfl : u = [] := by
      by_contra hne
      have hlast := List.getLast_mem hne
      simp_all [List.getLast?_append, List.getLast?_eq_some_getLast hne]
    simp

def IsVariable (name : List Char) : Prop :=
  ∃ c a, name = c :: a ∧ isNameStart c = true ∧ ∀ d ∈ a, isNamePart d = true

theorem IsVariable.all (h : IsVariable name) : ∀ c ∈ name, isNamePart c = true := by
  obtain ⟨c, a, rfl, hc, ha⟩ := h
  exact List.forall_mem_cons.2
    ⟨isNamePart_of_isAsciiNamePart (Script.isAsciiNamePart_of_isNameStart hc), ha⟩

theorem IsVariable.ne_nil (h : IsVariable name) : name ≠ [] := by
  obtain ⟨c, a, rfl, -⟩ := h
  exact List.cons_ne_nil c a

theorem IsVariable.getLast? (h : IsVariable name) (a : List Char) :
    (a ++ name).getLast?.any isBlank = false :=
  any_getLast?_append h.ne_nil (fun c hc => not_isBlank_of_isNamePart (h.all c hc)) a

theorem exists_variable (h : nameLength? isNamePart s = some n) :
    ∃ name r, s = name ++ r ∧ n = name.length ∧ IsVariable name := by
  cases s with
  | nil => simp [nameLength?] at h
  | cons c s =>
      simp only [nameLength?] at h
      split_ifs at h with hc
      obtain rfl := Option.some.inj h
      refine ⟨c :: s.takeWhile isNamePart, s.dropWhile isNamePart, ?_, rfl, c, _, rfl, hc, ?_⟩
      · rw [List.cons_append, List.takeWhile_append_dropWhile]
      · exact fun d hd => List.mem_takeWhile_imp hd

theorem IsVariable.nameLength? (h : IsVariable name) (hr : r.head?.any isNamePart = false) :
    Text.nameLength? isNamePart (name ++ r) = some name.length := by
  obtain ⟨c, a, rfl, hc, ha⟩ := h
  have hnone : r.takeWhile isNamePart = [] := by
    cases r with
    | nil => rfl
    | cons d r => exact List.takeWhile_cons_of_neg (by simpa using hr)
  rw [List.cons_append, Text.nameLength?, if_pos hc, List.takeWhile_append_of_pos ha, hnone,
    List.append_nil, List.length_cons]

end CssExtract.Text

namespace CssExtract.Script

open Text

variable {g o r s u name name' : List Char} {c : Char}

def declarators : List (List Char) := ["const".toList, "let".toList, "var".toList]

inductive Opening (name : List Char) : List Char → Prop
  | mk {keyword gap gap' : List Char} (hkeyword : keyword ∈ declarators)
      (hne : gap ≠ []) (hgap : ∀ c ∈ gap, isBlank c = true) (hname : IsVariable name)
      (hgap' : ∀ c ∈ gap', isBlank c = true) : Opening name (keyword ++ (gap ++ (name ++ gap')))

def IsType (a : List Char) : Prop := ∀ c ∈ a, c ≠ '=' ∧ c ≠ ';'

def opening? (s : List Char) : Option (List Char × List Char) := do
  let s ← someBlanks? (← declarator? s)
  let length ← nameLength? isNamePart s
  some (s.take length, trimStart (s.drop length))

/-- The variable of a declaration whose type annotation has no end. -/
def annotated? (s : List Char) : Option (List Char) := do
  match ← opening? s with
  | (name, ':' :: a) => if a.all (fun c => c ≠ '=' && c ≠ ';') then some name else none
  | _ => none

theorem declared?_eq_some_iff : declared? s = some name ↔ ∃ rest value, opening? s = some (name, rest) ∧
    (pastAnnotation? rest).bind (after? ['=']) = some value ∧ ∀ c ∈ value, isBlank c = true := by
  simp only [declared?, opening?, bind, Option.bind_eq_some_iff, guard, ← List.all_eq_true]
  constructor
  · rintro ⟨s₁, h₁, s₂, h₂, n, hn, rest, hrest, value, hvalue, _, hall, hname⟩
    obtain rfl := Option.some.inj hname
    exact ⟨_, value, ⟨s₁, h₁, s₂, h₂, n, hn, rfl⟩, ⟨rest, hrest, hvalue⟩, by simpa using hall⟩
  · rintro ⟨_, value, ⟨s₁, h₁, s₂, h₂, n, hn, hname⟩, ⟨rest, hrest, hvalue⟩, hall⟩
    obtain ⟨rfl, rfl⟩ := Prod.mk.inj (Option.some.inj hname)
    exact ⟨s₁, h₁, s₂, h₂, n, hn, rest, hrest, value, hvalue, (), by simp [hall], rfl⟩

theorem exists_opening {rest : List Char} (h : opening? s = some (name, rest)) :
    ∃ o, s = o ++ rest ∧ Opening name o := by
  simp only [opening?, bind, Option.bind_eq_some_iff, Option.some.injEq, Prod.mk.injEq] at h
  obtain ⟨s₁, hkeyword, s₂, hblanks, n, hname, rfl, rfl⟩ := h
  obtain ⟨keyword, hmem, rfl⟩ := exists_declarator hkeyword
  obtain ⟨gap, rfl, hne, hgap⟩ := exists_blanks hblanks
  obtain ⟨name, r, rfl, rfl, hvariable⟩ := exists_variable hname
  rw [List.take_left, List.drop_left]
  have hblanks : ∀ c ∈ r.takeWhile isBlank, isBlank c = true := fun c hc => List.mem_takeWhile_imp hc
  refine ⟨_, ?_, .mk hmem hne hgap hvariable hblanks⟩
  simp only [trimStart, List.append_assoc, List.takeWhile_append_dropWhile]

theorem someBlanks?_append (hne : g ≠ []) (hg : ∀ c ∈ g, isBlank c = true)
    (hr : r.head?.any isBlank = false) : someBlanks? (g ++ r) = some r := by
  obtain ⟨c, g, rfl⟩ := List.exists_cons_of_ne_nil hne
  obtain ⟨hc, hg⟩ := List.forall_mem_cons.1 hg
  rw [List.cons_append, someBlanks?, if_pos hc, trimStart_append hg hr]

namespace Opening

theorem opening? (h : Opening name o) (hblank : r.head?.any isBlank = false)
    (hpart : r.head?.any isNamePart = false) : Script.opening? (o ++ r) = some (name, r) := by
  cases h with
  | @mk keyword gap gap' hkeyword hne hgap hname hgap' =>
    have hdeclarator (t : List Char) : declarator? (keyword ++ t) = some t := by
      simp only [declarators, List.mem_cons, List.not_mem_nil, or_false] at hkeyword
      rcases hkeyword with rfl | rfl | rfl <;> rfl
    have hstart : (name ++ (gap' ++ r)).head?.any isBlank = false := by
      obtain ⟨c, a, rfl, hc, -⟩ := hname
      simpa using not_isBlank_of_isAsciiNamePart (isAsciiNamePart_of_isNameStart hc)
    have hend : (gap' ++ r).head?.any isNamePart = false := by
      cases gap' with
      | nil => simpa using hpart
      | cons c gap' => simpa using not_isNamePart_of_isBlank (hgap' c List.mem_cons_self)
    simp only [Script.opening?, List.append_assoc, hdeclarator, someBlanks?_append hne hgap hstart,
      hname.nameLength? hend, bind, Option.bind, List.take_left, List.drop_left, trimStart_append hgap' hblank]

theorem ne_nil (h : Opening name o) : o ≠ [] := by
  cases h with
  | mk _ hne => simp [hne]

theorem mem_cases (h : Opening name o) (hc : c ∈ o) : isBlank c = true ∨ isNamePart c = true := by
  cases h with
  | mk hkeyword hne hgap hname hgap' =>
    simp only [List.mem_append] at hc
    rcases hc with hc | hc | hc | hc
    · have hall : ∀ keyword ∈ declarators, keyword.all isNamePart = true := by decide +kernel
      exact .inr (List.all_eq_true.1 (hall _ hkeyword) c hc)
    · exact .inl (hgap c hc)
    · exact .inr (hname.all c hc)
    · exact .inl (hgap' c hc)

theorem notMem (h : Opening name o) (hblank : isBlank c = false) (hpart : isNamePart c = false) : c ∉ o :=
  fun hc => by rcases h.mem_cases hc with hc | hc <;> simp_all

theorem isType (h : Opening name o) : IsType o := fun c hc => by
  refine ⟨?_, ?_⟩ <;> rintro rfl
  · exact h.notMem (by decide) (by decide) hc
  · exact h.notMem (by decide) (by decide) hc

end Opening

theorem getLast?_of_mem_declarators {k : List Char} (hk : k ∈ declarators) (u : List Char) :
    (u ++ k).getLast?.any isBlank = false := by
  have hall : ∀ k ∈ declarators, k ≠ [] ∧ k.all (!isBlank ·) = true := by decide +kernel
  exact any_getLast?_append (hall k hk).1 (by simpa using (hall k hk).2) u

theorem eq_nil_of_mem_declarators {k : List Char} (hk : k ∈ declarators) (h : u ++ k ∈ declarators) :
    u = [] := by
  have hsuffix : ∀ k ∈ declarators, ∀ k' ∈ declarators, k <:+ k' → k = k' := by decide +kernel
  simpa using hsuffix k hk _ h (List.suffix_append u k)

/-- Nothing that a declaration opens with is the end of something longer that one opens with. -/
theorem Opening.eq_nil (h' : Opening name' s) (h : Opening name o) (hs : s = u ++ o) : u = [] := by
  cases h with
  | @mk keyword gap gap' hkeyword hne hgap hname hgap' =>
    cases h' with
    | @mk keyword' gap₂ gap₂' hkeyword' hne' hgap₂ hname' hgap₂' =>
      -- the two are told apart from their ends on: blanks, a name, blanks and a keyword
      simp only [← List.append_assoc] at hs
      obtain ⟨hnames, rfl⟩ := append_inj_of_all hs hgap₂' hgap' (hname'.getLast? _) (hname.getLast? _)
      obtain ⟨hgaps, rfl⟩ := append_inj_of_all hnames hname'.all hname.all
        (any_getLast?_append hne' (fun c hc => not_isNamePart_of_isBlank (hgap₂ c hc)) _)
        (any_getLast?_append hne (fun c hc => not_isNamePart_of_isBlank (hgap c hc)) _)
      obtain ⟨rfl, rfl⟩ := append_inj_of_all hgaps hgap₂ hgap
        (getLast?_of_mem_declarators hkeyword' []) (getLast?_of_mem_declarators hkeyword u)
      exact eq_nil_of_mem_declarators hkeyword hkeyword'

theorem pastAnnotation?_eq_some_iff {value : List Char} :
    (pastAnnotation? r).bind (after? ['=']) = some value ↔
      r = '=' :: value ∨ ∃ a, a ≠ [] ∧ IsType a ∧ r = ':' :: (a ++ '=' :: value) := by
  constructor
  · intro h
    obtain ⟨rest, hrest, hvalue⟩ := Option.bind_eq_some_iff.1 h
    obtain rfl : rest = '=' :: value := after?_eq_some_iff.1 hvalue
    by_cases hcolon : ∃ s, r = ':' :: s
    · obtain ⟨s, rfl⟩ := hcolon
      simp only [pastAnnotation?] at hrest
      split_ifs at hrest with hlength
      have hsplit := List.takeWhile_append_dropWhile (p := fun c => c ≠ '=' && c ≠ ';') (l := s)
      rw [Option.some.inj hrest] at hsplit hlength
      refine .inr ⟨_, ?_, fun c hc => ?_, by rw [hsplit]⟩
      · intro hnil
        rw [hnil, List.nil_append] at hsplit
        exact hlength (by rw [hsplit])
      · simpa using List.mem_takeWhile_imp hc
    · rw [pastAnnotation?.eq_2 r fun s hs => hcolon ⟨s, hs⟩] at hrest
      exact .inl (Option.some.inj hrest)
  · rintro (rfl | ⟨a, hne, ha, rfl⟩)
    · rfl
    · have hdrop : (a ++ '=' :: value).dropWhile (fun c => c ≠ '=' && c ≠ ';') = '=' :: value := by
        rw [List.dropWhile_append_of_pos (by simpa [IsType] using ha)]
        rfl
      have := List.length_pos_iff.2 hne
      simp only [pastAnnotation?, hdrop]
      rw [if_neg (by simp; omega)]
      rfl

theorem declared?_iff : declared? s = some name ↔ ∃ o a value, Opening name o ∧
    s = o ++ a ++ '=' :: value ∧ (a = [] ∨ ∃ b, b ≠ [] ∧ IsType b ∧ a = ':' :: b) ∧
    ∀ c ∈ value, isBlank c = true := by
  rw [declared?_eq_some_iff]
  constructor
  · rintro ⟨rest, value, hopening, hvalue, hall⟩
    obtain ⟨o, rfl, ho⟩ := exists_opening hopening
    rcases pastAnnotation?_eq_some_iff.1 hvalue with rfl | ⟨b, hne, hb, rfl⟩
    · exact ⟨o, [], value, ho, by simp, .inl rfl, hall⟩
    · exact ⟨o, ':' :: b, value, ho, by simp, .inr ⟨b, hne, hb, rfl⟩, hall⟩
  · rintro ⟨o, a, value, ho, rfl, ha, hall⟩
    rw [List.append_assoc]
    refine ⟨a ++ '=' :: value, value, ho.opening? ?_ ?_, pastAnnotation?_eq_some_iff.2 ?_, hall⟩
    · rcases ha with rfl | ⟨b, -, -, rfl⟩ <;> rfl
    · rcases ha with rfl | ⟨b, -, -, rfl⟩ <;> rfl
    · rcases ha with rfl | ⟨b, hne, hb, rfl⟩
      · exact .inl rfl
      · exact .inr ⟨b, hne, hb, rfl⟩

theorem annotated?_iff : annotated? s = some name ↔ ∃ o a, Opening name o ∧ s = o ++ ':' :: a ∧ IsType a := by
  simp only [annotated?, bind, Option.bind_eq_some_iff]
  constructor
  · rintro ⟨⟨name', rest⟩, hopening, h⟩
    obtain ⟨o, rfl, ho⟩ := exists_opening hopening
    split at h
    · rename_i a heq
      obtain ⟨rfl, rfl⟩ := Prod.mk.inj heq
      split_ifs at h with ha
      obtain rfl := Option.some.inj h
      exact ⟨o, a, ho, rfl, by simpa [IsType] using ha⟩
    · simp at h
  · rintro ⟨o, a, ho, rfl, ha⟩
    refine ⟨_, ho.opening? rfl rfl, ?_⟩
    simpa [IsType] using ha

theorem declared?_append (h : Opening name o) (hg : ∀ c ∈ g, isBlank c = true) (hu : u ≠ []) :
    declared? (u ++ (o ++ '=' :: g)) = annotated? u := by
  ext other
  rw [declared?_iff, annotated?_iff]
  constructor
  · rintro ⟨o', a, value, ho', hs, ha, hall⟩
    have heq : '=' ∉ o' ++ a := by
      rw [List.mem_append, not_or]
      refine ⟨fun hmem => (ho'.isType _ hmem).1 rfl, ?_⟩
      rcases ha with rfl | ⟨b, -, hb, rfl⟩
      · simp
      · simpa using fun hmem => (hb _ hmem).1 rfl
    rw [← List.append_assoc, eq_comm, List.append_cons_inj_of_notMem heq
      fun hmem => absurd (hall _ hmem) (by decide)] at hs
    obtain ⟨hs, -⟩ := hs
    rcases ha with rfl | ⟨b, -, hb, rfl⟩
    · rw [List.append_nil] at hs
      exact absurd (ho'.eq_nil h hs) hu
    · obtain ⟨v, rfl, hv⟩ | ⟨v, -, rfl⟩ := List.append_eq_append_iff.1 hs
      · cases v with
        | nil => exact absurd (hv ▸ List.mem_cons_self) (h.notMem (by decide) (by decide))
        | cons c v =>
            obtain ⟨rfl, rfl⟩ := List.cons.inj hv
            exact ⟨o', v, ho', rfl, fun c hc => hb c (List.mem_append_left _ hc)⟩
      · exact absurd (by simp) (h.notMem (c := ':') (by decide) (by decide))
  · rintro ⟨o', a, ho', rfl, ha⟩
    refine ⟨o', ':' :: (a ++ o), g, ho', by simp, .inr ⟨a ++ o, by simp [h.ne_nil], ?_, rfl⟩, hg⟩
    exact fun c hc => (List.mem_append.1 hc).elim (ha c) (h.isType c)

theorem bindingBefore?_append (h : Opening name o) (hg : ∀ c ∈ g, isBlank c = true) (u : List Char) :
    bindingBefore? (u ++ (o ++ '=' :: g)) = some ((u.tails.findSome? annotated?).getD name) := by
  induction u with
  | nil =>
      obtain ⟨c, t, hs⟩ := List.exists_cons_of_ne_nil (show o ++ '=' :: g ≠ [] by simp)
      have hdeclared : declared? (c :: t) = some name :=
        declared?_iff.2 ⟨o, [], g, h, by rw [← hs, List.append_nil], .inl rfl, hg⟩
      rw [List.nil_append, hs, bindingBefore?, hdeclared]
      rfl
  | cons c u ih =>
      rw [List.cons_append, bindingBefore?, ih, ← List.cons_append, declared?_append h hg (by simp),
        List.tails_cons, List.findSome?_cons]
      cases annotated? (c :: u) <;> rfl

end CssExtract.Script

namespace CssExtract.Styled

open Script Text

variable {source before o g name : List Char} {tag : String} {filename : Option String} {imports : Imports}
  {results : List (Except ParseError CallSite)} {site : CallSite}

theorem binding_of_callSiteOf {raw : RawSite} {idx : Nat}
    (h : callSiteOf source filename imports raw idx = .ok site) :
    site.binding = (bindingBefore? (source.take site.span.start)).map String.ofList := by
  simp only [callSiteOf] at h
  split at h
  · obtain rfl := Except.ok.inj h
    rfl
  · simp at h

/-- A site that a declaration gives its variable as the value is bound to the first variable before the
declaration whose type annotation has no end; without one, to the variable of the declaration. -/
theorem binding_of_declaration (h : findCallSites source tag filename imports = .ok results)
    (hsite : .ok site ∈ results) (ho : Opening name o) (hg : ∀ c ∈ g, isBlank c = true)
    (hbefore : source.take site.span.start = before ++ (o ++ '=' :: g)) :
    site.binding = some (String.ofList ((before.tails.findSome? annotated?).getD name)) := by
  simp only [findCallSites] at h
  split at h
  · simp at h
  · obtain rfl := Except.ok.inj h
    obtain ⟨⟨raw, idx⟩, -, hcall⟩ := List.mem_map.1 hsite
    rw [binding_of_callSiteOf hcall, hbefore, bindingBefore?_append ho hg]
    rfl

def endedAnnotations : List Char :=
  "// let me: see;\nlet a: number, b = 1;\nlet c : T;\nvar D$ =\n styled.div`x`".toList

theorem endedAnnotations_bound : ∃ site, findCallSites endedAnnotations "styled" none [] = .ok [.ok site] ∧
    site.binding = some "D$" := by
  obtain ⟨site, h, hstart⟩ : ∃ site, findCallSites endedAnnotations "styled" none [] = .ok [.ok site] ∧
      site.span.start = 59 := ⟨_, rfl, by decide +kernel⟩
  have ho : Opening ['D', '$'] ("var".toList ++ ([' '] ++ (['D', '$'] ++ [' ']))) :=
    .mk (by decide) (by simp) (List.all_eq_true.1 (by decide))
      ⟨'D', ['$'], rfl, by decide, List.all_eq_true.1 (by decide)⟩ (List.all_eq_true.1 (by decide))
  have hbefore : endedAnnotations.take site.span.start =
      "// let me: see;\nlet a: number, b = 1;\nlet c : T;\n".toList ++
        ("var".toList ++ ([' '] ++ (['D', '$'] ++ [' '])) ++ '=' :: ['\n', ' ']) := by
    rw [hstart]
    decide +kernel
  refine ⟨site, h, ?_⟩
  rw [binding_of_declaration h List.mem_cons_self ho (List.all_eq_true.1 (by decide)) hbefore]
  decide +kernel

def openAnnotation : List Char := "let a: number\nconst B = styled.div`x`".toList

theorem openAnnotation_misbound : ∃ site o, findCallSites openAnnotation "styled" none [] = .ok [.ok site] ∧
    openAnnotation.take site.span.start = "let a: number\n".toList ++ (o ++ ['=', ' ']) ∧
    Opening ['B'] o ∧ site.binding = some "a" := by
  refine ⟨_, "const".toList ++ ([' '] ++ (['B'] ++ [' '])), rfl, by decide +kernel, ?_, by decide +kernel⟩
  exact .mk (by decide) (by simp) (List.all_eq_true.1 (by decide)) ⟨'B', [], rfl, by decide, by simp⟩
    (List.all_eq_true.1 (by decide))

end CssExtract.Styled
