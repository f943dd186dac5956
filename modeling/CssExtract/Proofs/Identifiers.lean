import CssExtract.Proofs.ClassNames

namespace CssExtract.Styled

open Text

/-- Texts of identifier characters that are no identifiers, a digit at the front apart. -/
inductive Unfit : List Char → Prop
  | empty : Unfit []
  | hyphen : Unfit ['-']
  | number {d : Char} {s : List Char} (hd : d.isDigit = true) : Unfit ('-' :: d :: s)

/-- A name that can stand in a selector. -/
structure IsIdentifier (s : List Char) : Prop where
  parts : ∀ c ∈ s, c.isAlphanum = true ∨ c = '-' ∨ c = '_' ∨ 128 ≤ c.toNat
  start : s.head?.any Char.isDigit = false
  fit : ¬ Unfit s

variable {c d : Char} {s t : List Char}

theorem unfit_cons_iff : Unfit (c :: s) ↔ c = '-' ∧ ∀ d ∈ s.head?, d.isDigit = true := by
  constructor
  · rintro (_ | _ | hd)
    · exact ⟨rfl, by simp⟩
    · exact ⟨rfl, by simpa using hd⟩
  · rintro ⟨rfl, hs⟩
    cases s with
    | nil => exact .hyphen
    | cons d s => exact .number (hs d rfl)

theorem cssPart_isDigit (c : Char) : (cssPart c).isDigit = c.isDigit := by
  simp only [cssPart]
  split_ifs with hc
  · rfl
  · rw [Bool.eq_iff_iff]
    constructor
    · intro h
      exact absurd h (by decide)
    · intro h
      simp [isCssPart, Char.isAlphanum, h] at hc

theorem cssStart_eq_hyphen_iff : cssStart c = '-' ↔ c = '-' := by
  constructor
  · intro h
    rcases cssStart_cases c with hline | ⟨hsame, -⟩
    · exact absurd (hline.symm.trans h) (by decide)
    · exact hsame.symm.trans h
  · rintro rfl
    decide

theorem cssStart_isDigit (c : Char) : (cssStart c).isDigit = false := by
  rcases cssStart_cases c with hline | ⟨hsame, hdigit⟩
  · rw [hline]
    decide
  · rw [hsame, Bool.eq_false_iff]
    intro h
    simp [isDigit_of_ascii h] at hdigit

theorem part_of_isCssPart (h : isCssPart c = true) :
    c.isAlphanum = true ∨ c = '-' ∨ c = '_' ∨ 128 ≤ c.toNat := by
  simp only [isCssPart, Bool.or_eq_true, Bool.and_eq_true, decide_eq_true_eq] at h
  rcases h with ((h | h) | h) | ⟨h, -⟩
  · exact .inl h
  · exact .inr (.inl h)
  · exact .inr (.inr (.inl h))
  · exact .inr (.inr (.inr (by omega)))

/-- Hyphens stay where they are, and so do digits behind them. -/
theorem unfit_cssIdentifier_iff (s : String) : Unfit (cssIdentifier s).toList ↔ Unfit s.toList := by
  by_cases hs : s = ""
  · subst hs
    rfl
  · obtain ⟨c, cs, rfl⟩ := exists_ofList_cons hs
    rw [toList_cssIdentifier, String.toList_ofList, unfit_cons_iff, unfit_cons_iff,
      cssStart_eq_hyphen_iff, List.head?_map]
    simp [cssPart_isDigit]

theorem start_cssIdentifier (s : String) : (cssIdentifier s).toList.head?.any Char.isDigit = false := by
  by_cases hs : s = ""
  · subst hs
    rfl
  · obtain ⟨c, cs, rfl⟩ := exists_ofList_cons hs
    rw [toList_cssIdentifier]
    exact cssStart_isDigit c

theorem isIdentifier_cssIdentifier_iff (s : String) :
    IsIdentifier (cssIdentifier s).toList ↔ ¬ Unfit s.toList := by
  rw [← unfit_cssIdentifier_iff]
  constructor
  · exact IsIdentifier.fit
  · intro hfit
    exact ⟨fun c hc => part_of_isCssPart (isCssPart_of_mem_cssIdentifier hc), start_cssIdentifier s, hfit⟩

theorem lower_eq_hyphen (h : lower c = ['-']) : c = '-' := by
  by_cases hc : 128 ≤ c.toNat
  · obtain rfl := kelvin_of_lower_ascii hc h (by decide) (by decide)
    exact absurd h (by decide)
  · have hascii : ∀ n : Fin 128, (Char.ofNat n).toLower = '-' → Char.ofNat n = '-' := by decide
    have := hascii ⟨c.toNat, by omega⟩
    rw [Char.ofNat_toNat] at this
    exact this (by simpa [lower, show c.toNat < 128 by omega] using h)

/-- The lower case of an initial is a hyphen only if the initial is one. -/
theorem unfit_initial_iff (name s : List Char) :
    Unfit ((name.take 1).flatMap lower ++ s) ↔ Unfit (name.take 1 ++ s) := by
  cases name with
  | nil => simp
  | cons c cs =>
      rw [List.take_succ_cons, List.take_zero, List.flatMap_singleton, List.singleton_append,
        unfit_cons_iff]
      rcases lower_cases c with h | ⟨x, h⟩
      · rw [h]
        constructor
        · intro hunfit
          exact absurd (unfit_cons_iff.1 hunfit).1 (by decide)
        · rintro ⟨rfl, -⟩
          exact absurd h (by decide)
      · rw [h, List.singleton_append, unfit_cons_iff]
        refine and_congr_left fun _ => ⟨fun hx => lower_eq_hyphen (hx ▸ h), ?_⟩
        rintro rfl
        exact (List.singleton_inj.1 h).symm

/-- What tells whether a slug is an identifier. -/
def slugFront (name : String) (idx : Int) (options : Options) (filename : Option String) : List Char :=
  name.toList.take 1 ++ (slugify (relativeName filename options.root ++ ":" ++ toString idx)).toList

def classNameFront (name : String) (idx : Int) (options : Options) (filename : Option String) :
    List Char :=
  let slug := (namesOf name idx options filename).slug
  let values := classNameValues slug name (relativeName filename options.root) idx
  match options.classNaming with
  | .default => if options.displayName then name.toList ++ ['_'] else slugFront name idx options filename
  | .pattern text => (fillWith values text).toList
  | .custom generate => (generate slug name values).toList

theorem slug_namesOf (name : String) (idx : Int) (options : Options) (filename : Option String) :
    (namesOf name idx options filename).slug = slugOf name (relativeName filename options.root) idx := by
  simp only [namesOf]

theorem isIdentifier_slug_iff (name : String) (idx : Int) (options : Options)
    (filename : Option String) : IsIdentifier (namesOf name idx options filename).slug.toList ↔
      ¬ Unfit (slugFront name idx options filename) := by
  rw [slug_namesOf, slugOf, isIdentifier_cssIdentifier_iff, String.toList_append, String.toList_ofList,
    unfit_initial_iff, slugFront]

theorem isIdentifier_titled_iff (name relative : String) (idx : Int) :
    IsIdentifier (cssIdentifier name ++ "_" ++ slugOf name relative idx).toList ↔
      ¬ Unfit (name.toList ++ ['_']) := by
  have hslug : ∀ c ∈ (slugOf name relative idx).toList, isCssPart c = true := fun c hc =>
    isCssPart_of_mem_cssIdentifier hc
  generalize slugOf name relative idx = slug at hslug ⊢
  have hunfit : Unfit (cssIdentifier name ++ "_" ++ slug).toList ↔ Unfit (name.toList ++ ['_']) := by
    rw [String.toList_append, String.toList_append]
    by_cases hname : name = ""
    · subst hname
      exact (unfit_cons_iff (s := slug.toList)).trans
        ⟨fun h => absurd h.1 (by decide), fun h => absurd (unfit_cons_iff.1 h).1 (by decide)⟩
    · obtain ⟨c, cs, rfl⟩ := exists_ofList_cons hname
      have hfront : (String.ofList (c :: cs)).toList ++ ['_'] = c :: (cs ++ ['_']) := by
        rw [String.toList_ofList, List.cons_append]
      rw [toList_cssIdentifier, hfront, List.append_assoc, List.cons_append, unfit_cons_iff,
        unfit_cons_iff, cssStart_eq_hyphen_iff]
      cases cs with
      | nil => rfl
      | cons d cs => simp [cssPart_isDigit]
  have hstart : (cssIdentifier name ++ "_" ++ slug).toList.head?.any Char.isDigit = false := by
    rw [String.append_assoc, String.toList_append, List.head?_append]
    cases hhead : (cssIdentifier name).toList.head? with
    | none => simp
    | some c => simpa [hhead] using start_cssIdentifier name
  rw [← hunfit]
  constructor
  · exact IsIdentifier.fit
  · intro hfit
    refine ⟨fun c hc => part_of_isCssPart ?_, hstart, hfit⟩
    simp only [String.toList_append, List.mem_append] at hc
    rcases hc with (hc | hc) | hc
    · exact isCssPart_of_mem_cssIdentifier hc
    · obtain rfl := List.mem_singleton.1 hc
      decide
    · exact hslug c hc

/-- The names of a call site are identifiers just if what they are made of is not unfit for one. -/
theorem namesOf_identifiers (name : String) (idx : Int) (options : Options) (filename : Option String) :
    (IsIdentifier (namesOf name idx options filename).slug.toList ↔
      ¬ Unfit (slugFront name idx options filename)) ∧
    (IsIdentifier (namesOf name idx options filename).className.toList ↔
      ¬ Unfit (classNameFront name idx options filename)) := by
  have hslug := isIdentifier_slug_iff name idx options filename
  refine ⟨hslug, ?_⟩
  simp only [classNameFront]
  cases hnaming : options.classNaming with
  | default =>
      simp only [namesOf, hnaming]
      split_ifs with htitled
      · exact isIdentifier_titled_iff name (relativeName filename options.root) idx
      · rwa [slug_namesOf] at hslug
  | pattern text =>
      simp only [namesOf, hnaming]
      rw [isIdentifier_cssIdentifier_iff]
  | custom generate =>
      simp only [namesOf, hnaming]
      rw [isIdentifier_cssIdentifier_iff]

theorem hyphenatedNames_no_identifiers :
    ¬ IsIdentifier (namesOf "-box" 0 {} none).slug.toList ∧
    ¬ IsIdentifier (namesOf "Box" 0 { classNaming := .pattern "" } none).className.toList ∧
    ¬ IsIdentifier (namesOf "Box" 0 { classNaming := .pattern "-[index]" } none).className.toList := by
  have hslug : (namesOf "-box" 0 {} none).slug.toList = '-' :: '1' :: "vg6n8u".toList := by
    decide +kernel
  have hempty : (namesOf "Box" 0 { classNaming := .pattern "" } none).className.toList = [] := by
    decide +kernel
  have hindex : (namesOf "Box" 0 { classNaming := .pattern "-[index]" } none).className.toList =
      ['-', '0'] := by
    decide +kernel
  rw [hslug, hempty, hindex]
  exact ⟨fun h => h.fit (.number rfl), fun h => h.fit .empty, fun h => h.fit (.number rfl)⟩

end CssExtract.Styled
