import CssExtract.Styled.Naming
import Mathlib.Tactic.SplitIfs
import Mathlib.Tactic.Tauto

namespace CssExtract.Styled

open Text

def cssPart (c : Char) : Char := if isCssPart c then c else '_'

def cssStart (c : Char) : Char := if isDigit (cssPart c) then '_' else cssPart c

theorem toList_cssIdentifier (c : Char) (cs : List Char) :
    (cssIdentifier (String.ofList (c :: cs))).toList = cssStart c :: cs.map cssPart := by
  simp only [cssIdentifier, String.toList_ofList, List.map_cons]
  rfl

theorem cssStart_cases (c : Char) : cssStart c = '_' ∨ cssStart c = c ∧ isDigit c = false := by
  simp only [cssStart, cssPart]
  split_ifs <;> simp_all

theorem isCssPart_cssPart (c : Char) : isCssPart (cssPart c) = true := by
  simp only [cssPart]
  split_ifs with h
  · exact h
  · decide

theorem isCssPart_of_mem_cssIdentifier {s : String} {c : Char} (h : c ∈ (cssIdentifier s).toList) :
    isCssPart c = true := by
  obtain ⟨l, rfl⟩ : ∃ l, s = String.ofList l := ⟨s.toList, s.ofList_toList.symm⟩
  cases l with
  | nil => simp [cssIdentifier] at h
  | cons d ds =>
      rw [toList_cssIdentifier] at h
      rcases List.mem_cons.1 h with rfl | h
      · simp only [cssStart]
        split_ifs
        · decide
        · exact isCssPart_cssPart d
      · obtain ⟨e, -, rfl⟩ := List.mem_map.1 h
        exact isCssPart_cssPart e

theorem cssPart_of_isDigit {c : Char} (h : Base36.isDigit c = true) : cssPart c = c := by
  have : isCssPart c = true := by
    simp only [Base36.isDigit, Bool.or_eq_true] at h
    have halpha : c.isAlpha = (c.isUpper || c.isLower) := rfl
    simp only [isCssPart, Char.isAlphanum, halpha, Bool.or_eq_true]
    tauto
  simp [cssPart, this]

def initial (c : Char) : List Char :=
  match lower c with
  | [] => []
  | x :: xs => cssStart x :: xs.map cssPart

theorem le_of_mem_caseRuns : ∀ run ∈ caseRuns,
    128 ≤ (run.first : Int) + run.shift ∨ run.first = 0x212A ∧ run.last = 0x212A := by
  decide +kernel

theorem lower_cases (c : Char) : lower c = ['i', '\u0307'] ∨ ∃ x, lower c = [x] := by
  simp only [lower]
  split_ifs with _ hdot
  · exact .inr ⟨_, rfl⟩
  · exact .inl rfl
  · exact .inr ⟨_, rfl⟩

theorem initial_cases (c : Char) : initial c = ['i', '\u0307'] ∨ ∃ x, initial c = [x] := by
  rcases lower_cases c with h | ⟨x, h⟩
  · refine .inl ?_
    simp only [initial, h]
    decide
  · exact .inr ⟨cssStart x, by simp [initial, h]⟩

theorem toNat_ofNat_of_ne {n : Nat} (h : (Char.ofNat n).toNat ≠ 0) : (Char.ofNat n).toNat = n := by
  by_cases hn : n.isValidChar
  · rw [Char.ofNat, dif_pos hn]
    rfl
  · simp [Char.ofNat, hn] at h

/-- The Kelvin sign is the only character beyond ASCII whose lower case is in ASCII. -/
theorem kelvin_of_lower_ascii {c x : Char} (hc : 128 ≤ c.toNat) (h : lower c = [x])
    (hx : x.toNat < 128) (hx' : x.toNat ≠ 0) : c = '\u212A' := by
  simp only [lower, show ¬ c.toNat < 128 by omega, if_false] at h
  split_ifs at h with hdot
  · simp at h
  cases hrun : caseRuns.findSome? (·.lower? c.toNat) with
  | none =>
      obtain rfl : c = x := by simpa [hrun] using h
      omega
  | some n =>
      obtain rfl : Char.ofNat n = x := by simpa [hrun] using h
      obtain ⟨run, hmem, hlower⟩ := List.exists_of_findSome?_eq_some hrun
      simp only [CaseRun.lower?, Option.ite_none_right_eq_some, Option.some.injEq] at hlower
      obtain ⟨⟨hfirst, hlast, -⟩, hn⟩ := hlower
      have hvalid := toNat_ofNat_of_ne hx'
      rcases le_of_mem_caseRuns run hmem with hhigh | ⟨h1, h2⟩
      · omega
      · exact Char.toNat_inj.1 (show c.toNat = 0x212A by omega)

theorem kelvin_of_lower {c x : Char} (hc : 128 ≤ c.toNat) (h : lower c = [x]) (hx : x.isLower = true) :
    c = '\u212A' := by
  have hlow : x.toNat < 128 ∧ x.toNat ≠ 0 := by
    have hlower : x.isLower = (decide (x.val ≥ 'a'.val) && decide (x.val ≤ 'z'.val)) := rfl
    simp only [hlower, Bool.and_eq_true, decide_eq_true_eq, ge_iff_le,
      UInt32.le_iff_toNat_le] at hx
    have : x.toNat = x.val.toNat := rfl
    have : 'a'.val.toNat = 97 := rfl
    have : 'z'.val.toNat = 122 := rfl
    omega
  exact kelvin_of_lower_ascii hc h hlow.1 hlow.2

theorem cssStart_of_initial {c x : Char} (h : initial c = [x]) (hx : Base36.isDigit x = true) :
    cssStart c = c := by
  obtain ⟨z, hz⟩ : ∃ z, lower c = [z] := by
    refine (lower_cases c).resolve_left fun hdot => ?_
    simp [initial, hdot] at h
  obtain rfl : cssStart z = x := by simpa [initial, hz] using h
  -- the lower case stays as it is, and is a letter
  obtain ⟨hstart, hdigit⟩ : cssStart z = z ∧ isDigit z = false :=
    (cssStart_cases z).resolve_left fun hline => by simp [hline, Base36.isDigit] at hx
  rw [hstart] at hx
  have hletter : z.isLower = true := by
    simp only [Base36.isDigit, Bool.or_eq_true] at hx
    refine hx.resolve_left fun hx => ?_
    simp [isDigit_of_ascii hx] at hdigit
  by_cases hc : 128 ≤ c.toNat
  · obtain rfl := kelvin_of_lower hc hz hletter
    decide
  · have hascii : ∀ n : Fin 128, (Char.ofNat n).toLower.isLower = true →
        cssStart (Char.ofNat n) = Char.ofNat n := by decide
    obtain rfl : c.toLower = z := by simpa [lower, show c.toNat < 128 by omega] using hz
    have := hascii ⟨c.toNat, by omega⟩
    rw [Char.ofNat_toNat] at this
    exact this hletter

theorem exists_ofList_cons {name : String} (h : name ≠ "") :
    ∃ c cs, name = String.ofList (c :: cs) := by
  cases hl : name.toList with
  | nil => exact absurd (String.toList_eq_nil_iff.1 hl) h
  | cons c cs => exact ⟨c, cs, by rw [← hl, String.ofList_toList]⟩

def Digits (d : List Char) : Prop := ∀ x ∈ d, Base36.isDigit x = true

theorem digits_slugify (s : String) : Digits (slugify s).toList := by
  intro x hx
  exact Base36.isDigit_of_mem_write (by simpa [slugify] using hx)

theorem Digits.map_cssPart {d : List Char} (h : Digits d) : d.map cssPart = d :=
  (List.map_congr_left fun x hx => cssPart_of_isDigit (h x hx)).trans (List.map_id' d)

theorem toList_slugOf (c : Char) (cs : List Char) (relative : String) (idx : Int) :
    (slugOf (String.ofList (c :: cs)) relative idx).toList =
      initial c ++ (slugify (relative ++ ":" ++ toString idx)).toList := by
  let digits := (slugify (relative ++ ":" ++ toString idx)).toList
  have hdigits : digits.map cssPart = digits := (digits_slugify _).map_cssPart
  have hslug : slugOf (String.ofList (c :: cs)) relative idx =
      cssIdentifier (String.ofList (lower c ++ digits)) := by
    simp [slugOf, digits, String.ofList_append]
  rw [hslug]
  rcases lower_cases c with h | ⟨x, h⟩
  · rw [h, List.cons_append, toList_cssIdentifier, List.cons_append, List.map_cons, initial, h,
      List.nil_append, hdigits]
    rfl
  · rw [h, List.cons_append, toList_cssIdentifier, List.nil_append, hdigits, initial, h]
    rfl

theorem dot_not_digit : Base36.isDigit '\u0307' = false := by decide

theorem digits_of_slug_eq {c c' : Char} {d d' : List Char} (hd : Digits d) (hd' : Digits d')
    (h : initial c ++ d = initial c' ++ d') : d = d' := by
  have hdot {x y z : Char} {u v : List Char} (hv : Digits v)
      (h : [x, '\u0307'] ++ u = [y] ++ v) : False := by
    obtain ⟨-, rfl⟩ := List.cons.inj h
    simpa [dot_not_digit] using hv '\u0307' (by simp)
  rcases initial_cases c with hc | ⟨x, hc⟩ <;> rcases initial_cases c' with hc' | ⟨y, hc'⟩ <;>
    rw [hc, hc'] at h
  · exact List.append_cancel_left h
  · exact (hdot (z := y) hd' h).elim
  · exact (hdot (z := x) hd h.symm).elim
  · exact (List.cons.inj h).2

def titled (c : Char) (cs : List Char) : List Char := cssStart c :: cs ++ ['_'] ++ initial c

/-- Where the digits of a class name begin is told by the display name. -/
theorem no_digits_between {c c' : Char} {cs cs' w : List Char} (hw : Digits w)
    (h : titled c cs = titled c' cs' ++ w) : w = [] := by
  rcases List.eq_nil_or_concat w with hnil | ⟨v, x, rfl⟩
  · exact hnil
  exfalso
  rw [List.concat_eq_append] at h hw
  have hx : Base36.isDigit x = true := hw x (by simp)
  have hv : Digits v := fun u hu => hw u (by simp [hu])
  rw [← List.append_assoc] at h
  rcases initial_cases c with hc | ⟨y, hc⟩
  · -- the dot above that a lower case may end in is no digit
    rw [titled, hc, show ['i', '\u0307'] = ['i'] ++ ['\u0307'] from rfl, ← List.append_assoc] at h
    obtain ⟨-, hlast⟩ := List.append_inj' h rfl
    obtain rfl := List.singleton_inj.1 hlast
    simp [dot_not_digit] at hx
  rw [titled, hc] at h
  obtain ⟨hline, hlast⟩ := List.append_inj' h rfl
  obtain rfl := List.singleton_inj.1 hlast
  rcases List.eq_nil_or_concat v with rfl | ⟨u, z, rfl⟩
  · rw [List.append_nil, titled] at hline
    rcases initial_cases c' with hc' | ⟨y', hc'⟩
    · rw [hc', show ['i', '\u0307'] = ['i'] ++ ['\u0307'] from rfl, ← List.append_assoc] at hline
      exact absurd (List.append_inj' hline rfl).2 (by decide)
    · rw [hc'] at hline
      obtain ⟨hnames, hlast⟩ := List.append_inj' hline rfl
      obtain rfl := List.singleton_inj.1 hlast
      -- the two names start with the same character, so one initial is the other
      have hsame : cssStart c = cssStart c' := (List.cons.inj hnames).1
      have hstart := cssStart_of_initial hc hx
      have hinitial : initial c = ['_'] := by
        rcases cssStart_cases c' with hc'' | ⟨hc'', -⟩
        · rw [← hstart, hsame, hc'']
          decide
        · rw [← hstart, hsame, hc'', hc']
      obtain rfl := List.singleton_inj.1 (hc.symm.trans hinitial)
      simp [Base36.isDigit] at hx
  · rw [List.concat_eq_append, ← List.append_assoc] at hline
    obtain ⟨-, hlast⟩ := List.append_inj' hline rfl
    obtain rfl := List.singleton_inj.1 hlast
    simpa [Base36.isDigit] using hv '_' (by simp)

theorem digits_of_titled_eq {c c' : Char} {cs cs' d d' : List Char} (hd : Digits d)
    (hd' : Digits d') (h : titled c cs ++ d = titled c' cs' ++ d') : d = d' := by
  rcases List.append_eq_append_iff.1 h with ⟨w, hw, rfl⟩ | ⟨w, hw, rfl⟩
  · obtain rfl := no_digits_between (fun x hx => hd x (by simp [hx])) hw
    rfl
  · obtain rfl := no_digits_between (fun x hx => hd' x (by simp [hx])) hw
    rfl

theorem slugify_eq_of_slugOf_eq {name name' relative : String} {idx idx' : Int} (hname : name ≠ "")
    (hname' : name' ≠ "") (h : slugOf name relative idx = slugOf name' relative idx') :
    slugify (relative ++ ":" ++ toString idx) = slugify (relative ++ ":" ++ toString idx') := by
  obtain ⟨c, cs, rfl⟩ := exists_ofList_cons hname
  obtain ⟨c', cs', rfl⟩ := exists_ofList_cons hname'
  have h := congrArg String.toList h
  rw [toList_slugOf, toList_slugOf] at h
  exact String.toList_inj.1 (digits_of_slug_eq (digits_slugify _) (digits_slugify _) h)

theorem slugify_eq_of_titled_eq {name name' relative : String} {idx idx' : Int} (hname : name ≠ "")
    (hname' : name' ≠ "")
    (h : cssIdentifier name ++ "_" ++ slugOf name relative idx =
      cssIdentifier name' ++ "_" ++ slugOf name' relative idx') :
    slugify (relative ++ ":" ++ toString idx) = slugify (relative ++ ":" ++ toString idx') := by
  obtain ⟨c, cs, rfl⟩ := exists_ofList_cons hname
  obtain ⟨c', cs', rfl⟩ := exists_ofList_cons hname'
  have h := congrArg String.toList h
  rw [String.toList_append, String.toList_append, String.toList_append, String.toList_append,
    toList_cssIdentifier, toList_cssIdentifier, toList_slugOf, toList_slugOf, ← List.append_assoc,
    ← List.append_assoc] at h
  exact String.toList_inj.1 (digits_of_titled_eq (digits_slugify _) (digits_slugify _) h)

/-- Without a naming of the project, the digits of the digest can be told from the slug and from the
class name. -/
theorem slugify_eq_of_namesOf_eq {name name' : String} {idx idx' : Int} {options : Options}
    {filename : Option String} (hnaming : options.classNaming = .default) (hname : name ≠ "")
    (hname' : name' ≠ "")
    (h : (namesOf name idx options filename).slug = (namesOf name' idx' options filename).slug ∨
      (namesOf name idx options filename).className =
        (namesOf name' idx' options filename).className) :
    slugify (relativeName filename options.root ++ ":" ++ toString idx) =
      slugify (relativeName filename options.root ++ ":" ++ toString idx') := by
  simp only [namesOf, hnaming] at h
  rcases h with h | h
  · exact slugify_eq_of_slugOf_eq hname hname' h
  · split_ifs at h
    · exact slugify_eq_of_titled_eq hname hname' h
    · exact slugify_eq_of_slugOf_eq hname hname' h

theorem dot_notMem_namesOf (name : String) (idx : Int) {options : Options}
    {filename : Option String} (hnaming : options.classNaming = .default) :
    '.' ∉ (namesOf name idx options filename).className.toList := by
  have hidentifier (s : String) : '.' ∉ (cssIdentifier s).toList := fun h => by
    have := isCssPart_of_mem_cssIdentifier h
    simp [isCssPart] at this
  have hslug : '.' ∉ (slugOf name (relativeName filename options.root) idx).toList := hidentifier _
  simp only [namesOf, hnaming]
  split_ifs
  · simpa [hslug] using hidentifier name
  · exact hslug

end CssExtract.Styled
