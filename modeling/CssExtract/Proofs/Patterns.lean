import CssExtract.Proofs.Barrier
import CssExtract.Proofs.Identifiers
import CssExtract.Styled.Processor

namespace CssExtract.Styled

open Text

def varyingNames : List String := ["index", "precedingCss", "source", "unit", "valueSlug"]

def Steady (l : List Piece) : Prop := ∀ name ∈ varyingNames, .placeholder name ∉ l

instance (l : List Piece) : Decidable (Steady l) :=
  inferInstanceAs (Decidable (∀ name ∈ varyingNames, .placeholder name ∉ l))

def indexCount (l : List Piece) : Nat := l.count (.placeholder "index")

def Piece.text (c : VariableContext) (n : Nat) : Piece → List Char
  | .literal x => [x]
  | .placeholder name =>
    if name = "index" then (toString n).toList else ((c.values.get? name).getD "").toList

def written (c : VariableContext) : Nat → List Piece → List Char
  | _, [] => []
  | n, x :: l => x.text c n ++ written c (n + indexCount [x]) l

variable {c c' : VariableContext} {l l' before after near far : List Piece} {name : String}
  {m n : Nat} {x : Char} {p : Processor}

theorem indexCount_cons (x : Piece) (l : List Piece) :
    indexCount (x :: l) = indexCount [x] + indexCount l := by
  rw [indexCount, ← List.singleton_append, List.count_append]
  rfl

theorem indexCount_pos (h : .placeholder "index" ∈ l) : 0 < indexCount l := List.count_pos_iff.2 h

theorem written_append (c : VariableContext) (n : Nat) (l l' : List Piece) :
    written c n (l ++ l') = written c n l ++ written c (n + indexCount l) l' := by
  induction l generalizing n with
  | nil => rfl
  | cons x l ih =>
      rw [List.cons_append, written, written, ih, indexCount_cons x l, List.append_assoc, Nat.add_assoc]

theorem written_placeholder (c : VariableContext) (n : Nat) (name : String) (l : List Piece) :
    written c n (.placeholder name :: l) =
      (Piece.placeholder name).text c n ++ written c (n + indexCount [.placeholder name]) l := rfl

theorem steady_cons {x : Piece} : Steady (x :: l) ↔ (∀ name ∈ varyingNames, x ≠ .placeholder name) ∧ Steady l := by
  simp only [Steady, List.mem_cons, not_or, ← forall_and]
  constructor <;> intro h name hname <;> obtain ⟨hx, hl⟩ := h name hname <;> exact ⟨Ne.symm hx, hl⟩

theorem get?_cons_of_ne {key : String} (h : name ≠ key) (value : String) (entries : Entries String) :
    Entries.get? name ((key, value) :: entries) = entries.get? name := if_neg (Ne.symm h)

theorem get?_cons_congr {entries entries' : Entries String} (key value : String)
    (h : entries.get? name = entries'.get? name) :
    Entries.get? name ((key, value) :: entries) = Entries.get? name ((key, value) :: entries') := by
  simp only [Entries.get?, h]

theorem get?_values_eq (h : name ∉ varyingNames) (source unit css source' unit' css' : String) :
    (p.context source unit css).values.get? name = (p.context source' unit' css').values.get? name := by
  simp only [varyingNames, List.mem_cons, List.not_mem_nil, or_false, not_or] at h
  obtain ⟨-, hcss, hsource, hunit, hslug⟩ := h
  refine get?_cons_congr _ _ (get?_cons_congr _ _ ?_)
  rw [get?_cons_of_ne hcss, get?_cons_of_ne hcss]
  refine get?_cons_congr _ _ ?_
  rw [get?_cons_of_ne hsource, get?_cons_of_ne hunit, get?_cons_of_ne hslug, get?_cons_of_ne hsource,
    get?_cons_of_ne hunit, get?_cons_of_ne hslug]

/-- What pieces write that are the same for all variables of a component. -/
def Processor.steadyText (p : Processor) (l : List Piece) : List Char := written (p.context "" "" "") 0 l

theorem Steady.written_eq (h : Steady l) (source unit css : String) (n : Nat) :
    written (p.context source unit css) n l = p.steadyText l := by
  suffices hsame : ∀ k, written (p.context source unit css) n l = written (p.context "" "" "") k l from hsame 0
  induction l generalizing n with
  | nil => exact fun k => rfl
  | cons x l ih =>
      obtain ⟨hx, hl⟩ := steady_cons.1 h
      intro k
      rw [written, written, ih hl (n + indexCount [x]) (k + indexCount [x])]
      cases x with
      | literal x => rfl
      | placeholder name =>
          have hname : name ∉ varyingNames := fun hmem => hx name hmem rfl
          have hindex : name ≠ "index" := fun heq => hname (heq ▸ by decide)
          simp only [Piece.text, if_neg hindex]
          rw [get?_values_eq hname source unit css "" "" ""]

theorem Steady.written_ahead (hbefore : Steady before) (hnear : Steady near) (source unit css : String)
    (n : Nat) : written (p.context source unit css) n (before ++ .placeholder name :: (near ++ far)) =
      p.steadyText before ++ ((Piece.placeholder name).text (p.context source unit css)
        (n + indexCount before) ++ (p.steadyText near ++ written (p.context source unit css)
          (n + indexCount before + indexCount [.placeholder name] + indexCount near) far)) := by
  rw [written_append, written_placeholder, written_append, hbefore.written_eq, hnear.written_eq]

theorem Steady.written_behind (hnear : Steady near) (hafter : Steady after) (source unit css : String)
    (n : Nat) :
    written (p.context source unit css) n (far ++ .literal x :: near ++ .placeholder name :: after) =
      written (p.context source unit css) n far ++ [x] ++ (p.steadyText near ++
        ((Piece.placeholder name).text (p.context source unit css)
          (n + indexCount (far ++ .literal x :: near)) ++ p.steadyText after)) := by
  rw [written_append, written_append, written_placeholder, hafter.written_eq, written, hnear.written_eq]
  simp [Piece.text]

def cleaned : List Char → List Char
  | [] => []
  | c :: s => cssStart c :: s.map cssPart

theorem cssIdentifier_ofList (s : List Char) : cssIdentifier (String.ofList s) = String.ofList (cleaned s) := by
  cases s with
  | nil => rfl
  | cons c s => exact String.toList_injective (by rw [toList_cssIdentifier, String.toList_ofList, cleaned])

theorem cleaned_append {s : List Char} (h : s ≠ []) (t : List Char) :
    cleaned (s ++ t) = cleaned s ++ t.map cssPart := by
  cases s with
  | nil => exact absurd rfl h
  | cons c s => rw [List.cons_append, cleaned, cleaned, List.map_append, List.cons_append]

/-- The characters that the text of a placeholder is made of. -/
def partOf (name : String) : Char → Bool := if name = "index" then Char.isDigit else Base36.isDigit

/-- What pieces write does not go on with the text of the placeholder before them. -/
inductive Detached (name : String) : List Piece → Prop
  | nil : Detached name []
  | literal {x : Char} {far : List Piece} (hx : partOf name x = false) :
      Detached name (.literal x :: far)
  | unit {far : List Piece} (hname : name = "index") (hfar : Detached name far) :
      Detached name (.placeholder "unit" :: far)

/-- A pattern whose texts show in their identifiers what stood for a placeholder. At the front an
identifier of that text is all that is left. -/
inductive Findable (p : Processor) (name : String) : (String → String) → List Piece → Prop
  | front {before near far : List Piece} (hbefore : Steady before) (hfront : p.steadyText before = [])
      (hnear : Steady near) (hfar : Detached name far) :
      Findable p name cssIdentifier (before ++ .placeholder name :: (near ++ far))
  | ahead {before near far : List Piece} (hbefore : Steady before) (hfront : p.steadyText before ≠ [])
      (hnear : Steady near) (hfar : Detached name far) :
      Findable p name id (before ++ .placeholder name :: (near ++ far))
  | behind {far near after : List Piece} {x : Char} (hx : partOf name x = false) (hnear : Steady near)
      (hafter : Steady after) : Findable p name id (far ++ .literal x :: near ++ .placeholder name :: after)

def Parts (name : String) (s : List Char) : Prop := ∀ x ∈ s, partOf name x = true

def Fenced (name : String) (s : List Char) : Prop := ∀ x ∈ s.head?, partOf name x = false

theorem partOf_line (name : String) : partOf name '_' = false := by
  simp only [partOf]
  split_ifs <;> rfl

theorem partOf_cssPart (h : partOf name x = false) : partOf name (cssPart x) = false := by
  simp only [cssPart]
  split_ifs
  · exact h
  · exact partOf_line name

theorem partOf_cssStart (h : partOf name x = false) : partOf name (cssStart x) = false := by
  rcases cssStart_cases x with hx | ⟨hx, -⟩
  · exact hx ▸ partOf_line name
  · rwa [hx]

theorem base36_of_partOf (h : partOf name x = true) : Base36.isDigit x = true := by
  simp only [partOf] at h
  split_ifs at h
  · simp [Base36.isDigit, h]
  · exact h

theorem Parts.map_cssPart {u : List Char} (h : Parts name u) : u.map cssPart = u :=
  Digits.map_cssPart fun x hx => base36_of_partOf (h x hx)

theorem Fenced.takeWhile_append {t : List Char} (ht : Fenced name t) (s : List Char) :
    (s ++ t).takeWhile (partOf name) = s.takeWhile (partOf name) := by
  cases t with
  | nil => rw [List.append_nil]
  | cons x t => exact Script.takeWhile_barrier (ht x rfl) s t

variable {u v a b k s t : List Char}

/-- Two texts of parts are the same if the same text follows them, and then no part. -/
theorem Parts.eq_of_fenced (hu : Parts name u) (hv : Parts name v) (hs : Fenced name s)
    (ht : Fenced name t) (h : u ++ (k ++ s) = v ++ (k ++ t)) : u = v := by
  have hparts := congrArg (List.takeWhile (partOf name)) h
  rw [List.takeWhile_append_of_pos hu, List.takeWhile_append_of_pos hv, hs.takeWhile_append,
    ht.takeWhile_append] at hparts
  exact List.append_cancel_right hparts

theorem cleaned_eq_of_front (hu : Parts name u) (hv : Parts name v) (hu' : u ≠ []) (hv' : v ≠ [])
    (hs : Fenced name (s.map cssPart)) (ht : Fenced name (t.map cssPart))
    (h : cleaned (u ++ (k ++ s)) = cleaned (v ++ (k ++ t))) : cleaned u = cleaned v := by
  obtain ⟨c, u, rfl⟩ := List.exists_cons_of_ne_nil hu'
  obtain ⟨d, v, rfl⟩ := List.exists_cons_of_ne_nil hv'
  have hu : Parts name u := fun x hx => hu x (List.mem_cons_of_mem c hx)
  have hv : Parts name v := fun x hx => hv x (List.mem_cons_of_mem d hx)
  rw [cleaned_append hu', cleaned_append hv', cleaned, cleaned, List.map_append, List.map_append,
    List.cons_append, List.cons_append] at h
  obtain ⟨hstart, hrest⟩ := List.cons.inj h
  rw [hu.map_cssPart, hv.map_cssPart] at hrest
  rw [cleaned, cleaned, hstart, hu.eq_of_fenced hv hs ht hrest]

theorem eq_of_ahead (hu : Parts name u) (hv : Parts name v) (hs : Fenced name (s.map cssPart))
    (ht : Fenced name (t.map cssPart)) (hb : b ≠ [])
    (h : cleaned (b ++ (u ++ (k ++ s))) = cleaned (b ++ (v ++ (k ++ t)))) : u = v := by
  rw [cleaned_append hb, cleaned_append hb] at h
  have hrest := List.append_cancel_left h
  rw [List.map_append, List.map_append, List.map_append, List.map_append, hu.map_cssPart,
    hv.map_cssPart] at hrest
  exact hu.eq_of_fenced hv hs ht hrest

theorem exists_cleaned_concat (s : List Char) (hx : partOf name x = false) :
    ∃ t y, cleaned (s ++ [x]) = t ++ [y] ∧ partOf name y = false := by
  by_cases hs : s = []
  · subst hs
    exact ⟨[], cssStart x, rfl, partOf_cssStart hx⟩
  · exact ⟨cleaned s, cssPart x, cleaned_append hs [x], partOf_cssPart hx⟩

theorem eq_of_behind (hu : Parts name u) (hv : Parts name v) (hx : partOf name x = false)
    (h : cleaned (s ++ [x] ++ (k ++ (u ++ a))) = cleaned (t ++ [x] ++ (k ++ (v ++ a)))) : u = v := by
  have hends (s : List Char) : s ++ [x] ≠ [] := by simp
  obtain ⟨s', y, hs, hy⟩ := exists_cleaned_concat s hx
  obtain ⟨t', z, ht, hz⟩ := exists_cleaned_concat t hx
  rw [cleaned_append (hends s), cleaned_append (hends t), hs, ht, List.map_append, List.map_append,
    List.map_append, List.map_append, hu.map_cssPart, hv.map_cssPart] at h
  simp only [← List.append_assoc] at h
  have hreverse := congrArg List.reverse (List.append_cancel_right h)
  simp only [List.reverse_append, List.append_assoc] at hreverse
  have hu : Parts name u.reverse := fun x hx => hu x (List.mem_reverse.1 hx)
  have hv : Parts name v.reverse := fun x hx => hv x (List.mem_reverse.1 hx)
  have hfront := hu.eq_of_fenced hv (by simpa [Fenced] using hy) (by simpa [Fenced] using hz) hreverse
  exact List.reverse_inj.1 hfront

def foundNames : List String := ["index", "valueSlug"]

def Undigited (unit : String) : Prop := ∀ x ∈ unit.toList, x.isDigit = false

variable {source unit css source' unit' css' : String}

theorem mem_foundNames_iff : name ∈ foundNames ↔ name = "index" ∨ name = "valueSlug" := by
  simp [foundNames]

theorem parts_text (hname : name ∈ foundNames) (n : Nat) :
    Parts name ((Piece.placeholder name).text (p.context source unit css) n) := by
  rcases mem_foundNames_iff.1 hname with rfl | rfl
  · intro x hx
    have hdigits : (Piece.placeholder "index").text (p.context source unit css) n = Nat.toDigits 10 n :=
      String.toList_ofList
    exact Nat.isDigit_of_mem_toDigits (by decide) (by decide) (hdigits ▸ hx)
  · exact digits_slugify (source ++ unit)

theorem text_ne_nil (hname : name ∈ foundNames) (n : Nat) :
    (Piece.placeholder name).text (p.context source unit css) n ≠ [] := by
  rcases mem_foundNames_iff.1 hname with rfl | rfl
  · have hdigits : (Piece.placeholder "index").text (p.context source unit css) n = Nat.toDigits 10 n :=
      String.toList_ofList
    exact hdigits ▸ Nat.toDigits_ne_nil
  · have hslug : (Piece.placeholder "valueSlug").text (p.context source unit css) n =
        Base36.write (Digest.leading (source ++ unit).toUTF8.toList) := String.toList_ofList
    rw [hslug, Base36.write]
    split_ifs <;> simp

theorem written_ne_nil (hname : name ∈ foundNames) (hmem : .placeholder name ∈ l) (n : Nat) :
    written (p.context source unit css) n l ≠ [] := by
  obtain ⟨before, after, rfl⟩ := List.append_of_mem hmem
  rw [written_append, written_placeholder]
  intro hnil
  obtain ⟨-, htext⟩ := List.append_eq_nil_iff.1 hnil
  exact text_ne_nil hname _ (List.append_eq_nil_iff.1 htext).1

theorem Detached.fenced (h : Detached name far) (hunit : Undigited unit) (n : Nat) :
    Fenced name ((written (p.context source unit css) n far).map cssPart) := by
  induction h generalizing n with
  | nil => simp [written, Fenced]
  | literal hx => simpa [written, Piece.text, Fenced] using partOf_cssPart hx
  | @unit far hname hfar ih =>
      have htext : (Piece.placeholder "unit").text (p.context source unit css) n = unit.toList := rfl
      rw [written_placeholder, htext]
      cases hlist : unit.toList with
      | nil => exact ih _
      | cons y ys =>
          have hy : y.isDigit = false := hunit y (by simp [hlist])
          simp [Fenced, partOf, hname, cssPart_isDigit, hy]

namespace Findable

variable {shown : String → String}

theorem mem (h : Findable p name shown l) : .placeholder name ∈ l := by
  cases h <;> simp

/-- Equal identifiers by a pattern show the same in the place of a placeholder. -/
theorem shown_eq (h : Findable p name shown l) (hname : name ∈ foundNames) (hunit : Undigited unit)
    (hunit' : Undigited unit')
    (heq : cleaned (written (p.context source unit css) m l) =
      cleaned (written (p.context source' unit' css') n l)) :
    ∃ k, shown (String.ofList ((Piece.placeholder name).text (p.context source unit css) (m + k))) =
      shown (String.ofList ((Piece.placeholder name).text (p.context source' unit' css') (n + k))) := by
  cases h with
  | @front before near far hbefore hfront hnear hfar =>
      refine ⟨indexCount before, ?_⟩
      rw [hbefore.written_ahead hnear, hbefore.written_ahead hnear, hfront, List.nil_append,
        List.nil_append] at heq
      rw [cssIdentifier_ofList, cssIdentifier_ofList]
      exact congrArg String.ofList (cleaned_eq_of_front (parts_text hname _) (parts_text hname _)
        (text_ne_nil hname _) (text_ne_nil hname _) (hfar.fenced hunit _) (hfar.fenced hunit' _) heq)
  | @ahead before near far hbefore hfront hnear hfar =>
      refine ⟨indexCount before, congrArg String.ofList ?_⟩
      rw [hbefore.written_ahead hnear, hbefore.written_ahead hnear] at heq
      exact eq_of_ahead (parts_text hname _) (parts_text hname _) (hfar.fenced hunit _)
        (hfar.fenced hunit' _) hfront heq
  | @behind far near after x hx hnear hafter =>
      refine ⟨indexCount (far ++ .literal x :: near), congrArg String.ofList ?_⟩
      rw [hnear.written_behind hafter, hnear.written_behind hafter] at heq
      exact eq_of_behind (parts_text hname _) (parts_text hname _) hx heq

end Findable

end CssExtract.Styled
