import CssExtract.Proofs.Balance
import CssExtract.Styled.CallSite
import Mathlib.Data.List.Forall2

namespace CssExtract.Script

open Text

variable {a r s : List Char} {c : Char} {start i pending stop : Nat} {p q : Pieces}

/-- The rest of a template literal from an offset on, its backtick and what follows that included, and
the pieces that it is cut into. -/
inductive Cut : Nat → List Char → Pieces → Prop
  | tick (i : Nat) (r : List Char) : Cut i ('`' :: r) ⟨[], [], i + 1⟩
  | escaped {i : Nat} {r : List Char} {p : Pieces} (c : Char) :
      Cut (i + 2) r p → Cut i ('\\' :: c :: r) (p.addText ['\\', c])
  | hole {i : Nat} {a r : List Char} {p : Pieces} (h : Closes (.group '}') (a ++ ['}'])) :
      Cut (i + 2 + a.length + 1) r p →
        Cut i ('$' :: '{' :: (a ++ '}' :: r))
          ⟨[], ⟨String.ofList (trim a), ⟨i + 2, i + 2 + a.length⟩, String.ofList p.text⟩ :: p.holes, p.stop⟩
  | char {i : Nat} {c : Char} {r : List Char} {p : Pieces} (htick : c ≠ '`') (hescape : c ≠ '\\')
      (hhole : ¬ (c = '$' ∧ r.head? = some '{')) : Cut (i + 1) r p → Cut i (c :: r) (p.addText [c])

theorem readPieces_pending :
    readPieces start i pending s = readPieces start (i + pending) 0 (s.drop pending) := by
  induction pending generalizing i s with
  | zero => rfl
  | succ pending ih =>
      cases s with
      | nil => simp [readPieces]
      | cons c s =>
          rw [readPieces, ih, List.drop_succ_cons]
          congr 1
          omega

theorem readPieces_cons (h : c ≠ '\\') (start i : Nat) (s : List Char) :
    readPieces start i 0 (c :: s) =
      if c = '`' then .ok ⟨[], [], i + 1⟩
      else if c = '$' && s.head? = some '{' then do
        let stop ← skip (i + 2) [.group '}'] s.tail
        let rest ← readPieces start (i + 1) (stop - (i + 1)) s
        .ok ⟨[], ⟨String.ofList (trim (s.tail.take (stop - 1 - (i + 2)))), ⟨i + 2, stop - 1⟩,
          String.ofList rest.text⟩ :: rest.holes, rest.stop⟩
      else (readPieces start (i + 1) 0 s).map (·.addText [c]) := by
  rw [readPieces.eq_def]
  split
  · simp_all
  · simp_all
  · simp_all
  · rename_i hs
    obtain ⟨rfl, rfl⟩ := List.cons.inj hs
    rfl

theorem readPieces_hole (h : skip (i + 2) [.group '}'] (a ++ '}' :: r) = .ok (i + 2 + a.length + 1)) (start : Nat) :
    readPieces start i 0 ('$' :: '{' :: (a ++ '}' :: r)) =
      (readPieces start (i + 2 + a.length + 1) 0 r).map fun p =>
        ⟨[], ⟨String.ofList (trim a), ⟨i + 2, i + 2 + a.length⟩, String.ofList p.text⟩ :: p.holes, p.stop⟩ := by
  have hafter : readPieces start (i + 1) (i + 2 + a.length + 1 - (i + 1)) ('{' :: (a ++ '}' :: r)) =
      readPieces start (i + 2 + a.length + 1) 0 r := by
    rw [readPieces_pending, show i + 2 + a.length + 1 - (i + 1) = a.length + 1 + 1 by omega,
      List.drop_succ_cons, List.append_cons, List.drop_left' (by simp)]
    congr 1
    omega
  rw [readPieces_cons (by decide), if_neg (by decide), if_pos (by simp), List.tail_cons, h]
  simp only [bind, Except.bind, hafter, Nat.add_sub_cancel_left, Nat.add_sub_cancel, List.take_left]
  cases readPieces start (i + 2 + a.length + 1) 0 r <;> rfl

theorem readPieces_char (htick : c ≠ '`') (hescape : c ≠ '\\') (hhole : ¬ (c = '$' ∧ s.head? = some '{'))
    (start i : Nat) : readPieces start i 0 (c :: s) = (readPieces start (i + 1) 0 s).map (·.addText [c]) := by
  rw [readPieces_cons hescape, if_neg htick, if_neg (by simpa using hhole)]

theorem Cut.readPieces (h : Cut i s p) (start : Nat) : readPieces start i 0 s = .ok p := by
  induction h with
  | tick i r => rw [readPieces_cons (by decide), if_pos rfl]
  | escaped c _ ih => rw [Script.readPieces, ih]; rfl
  | @hole i a r p h _ ih =>
      have hskip := h (i + 2) (.group '}') r rfl
      rw [List.append_assoc, List.singleton_append, List.length_append, List.length_singleton] at hskip
      rw [readPieces_hole hskip, ih]
      rfl
  | char htick hescape hhole _ ih => rw [readPieces_char htick hescape hhole, ih]; rfl

theorem exists_hole (h : skip (i + 2) [.group '}'] s = .ok stop) : ∃ a r, s = a ++ '}' :: r ∧
    stop = i + 2 + a.length + 1 ∧ Closes (.group '}') (a ++ ['}']) := by
  obtain ⟨b, r, rfl, rfl, hb⟩ := completesAll_of_skip h (by simp)
  obtain ⟨a, rfl, -, -⟩ := exists_contents (completesAll_singleton_iff.1 hb)
  have hcloses := closes_of_skip h (.inr (by simp))
  exact ⟨a, r, by simp, by simp [Nat.add_assoc], hcloses⟩

theorem cut_of_readPieces (h : readPieces start i 0 s = .ok p) : Cut i s p := by
  -- on the length, since an expression is read in one step
  induction hn : s.length using Nat.strongRecOn generalizing s i p with
  | _ n ih =>
    cases s with
    | nil => simp [readPieces] at h
    | cons c s =>
        simp only [List.length_cons] at hn
        by_cases htick : c = '`'
        · subst htick
          rw [readPieces_cons (by decide), if_pos rfl] at h
          obtain rfl := Except.ok.inj h
          exact .tick i s
        by_cases hescape : c = '\\'
        · subst hescape
          cases s with
          | nil => simp [readPieces] at h
          | cons d s =>
              simp only [List.length_cons] at hn
              rw [readPieces] at h
              obtain ⟨q, hq, rfl⟩ := map_eq_ok_iff.1 h
              exact .escaped d (ih s.length (by omega) hq rfl)
        by_cases hhole : c = '$' ∧ s.head? = some '{'
        · obtain ⟨rfl, hbrace⟩ := hhole
          obtain ⟨s, rfl⟩ := List.head?_eq_some_iff.1 hbrace
          have hstep := h
          rw [readPieces_cons hescape, if_neg htick, if_pos (by simp), List.tail_cons] at hstep
          obtain ⟨stop, hskip, -⟩ := bind_eq_ok_iff.1 hstep
          obtain ⟨a, r, rfl, rfl, hcloses⟩ := exists_hole hskip
          rw [readPieces_hole hskip] at h
          obtain ⟨q, hq, rfl⟩ := map_eq_ok_iff.1 h
          exact .hole hcloses (ih r.length (by simp at hn; omega) hq rfl)
        · rw [readPieces_char htick hescape hhole] at h
          obtain ⟨q, hq, rfl⟩ := map_eq_ok_iff.1 h
          exact .char htick hescape hhole (ih s.length (by omega) hq rfl)

theorem Cut.skip (h : Cut i s p) : skip i [.template] s = .ok p.stop := by
  induction h with
  | tick i r =>
      rw [skip_move (.templateEnd rfl)]
      simp [Script.skip]
  | escaped c _ ih => rwa [skip_move_two (.templateEscape rfl)]
  | @hole i a r p h _ ih =>
      have hskip := h.skip (g := .group '}') rfl (i + 2) [.template] r
      rw [List.append_assoc, List.singleton_append] at hskip
      rw [skip_move_two (.templateHole rfl rfl), List.append_nil, hskip, ← ih]
      simp [Nat.add_assoc]
  | char htick hescape hhole _ ih => rwa [skip_move (.templateChar htick hescape hhole)]

theorem TemplateText.exists_cut {a : List Char} (h : TemplateText a) (i : Nat) (r : List Char) :
    ∃ p, Cut i (a ++ '`' :: r) p ∧ p.stop = i + a.length + 1 := by
  -- on the length, since the text is defined together with the groups in it
  induction hn : a.length using Nat.strongRecOn generalizing a i with
  | _ n ih =>
    cases h with
    | nil => exact ⟨_, .tick i r, by simp [← hn]⟩
    | @escaped b c hb =>
        simp only [List.length_cons] at hn
        obtain ⟨p, hp, hstop⟩ := ih b.length (by omega) hb (i + 2) rfl
        exact ⟨_, .escaped c hp, by simp only [Pieces.addText, hstop]; omega⟩
    | @hole a b h hb =>
        obtain ⟨a, rfl, hcloser, ha⟩ := exists_contents ((isGroup_cons_iff rfl).1 h)
        simp only [List.length_cons, List.length_append, List.length_nil] at hn
        obtain ⟨p, hp, hstop⟩ := ih b.length (by omega) hb (i + 2 + a.length + 1) rfl
        exact ⟨_, by simpa using .hole (ha.closes hcloser) hp, by simp only [hstop]; omega⟩
    | @char c b htick hescape hhole hb =>
        simp only [List.length_cons] at hn
        obtain ⟨p, hp, hstop⟩ := ih b.length (by omega) hb (i + 1) rfl
        refine ⟨_, .char htick hescape ?_ hp, by simp only [Pieces.addText, hstop]; omega⟩
        rintro ⟨rfl, hhead⟩
        cases b <;> simp_all

theorem exists_cut_iff : (∃ p, Cut i s p ∧ p.stop = stop) ↔ Script.skip i [.template] s = .ok stop := by
  refine ⟨fun ⟨p, hp, hstop⟩ => hstop ▸ hp.skip, fun h => ?_⟩
  obtain ⟨b, r, rfl, rfl, hb⟩ := completesAll_of_skip h (by simp)
  cases completesAll_singleton_iff.1 hb with
  | @template a ha =>
      obtain ⟨p, hp, hstop⟩ := ha.exists_cut i r
      exact ⟨p, by simpa using hp, by simp [hstop]; omega⟩

theorem readTemplate_eq_ok_iff {raw : RawTemplate} : readTemplate s i = .ok raw ↔
    ∃ p, Cut (i + 1) (s.drop (i + 1)) p ∧ raw = ⟨⟨i, p.stop⟩, String.ofList p.text, p.holes⟩ := by
  rw [readTemplate]
  constructor
  · intro h
    obtain ⟨p, hp, h⟩ := bind_eq_ok_iff.1 h
    exact ⟨p, cut_of_readPieces hp, (Except.ok.inj h).symm⟩
  · rintro ⟨p, hp, rfl⟩
    rw [hp.readPieces]
    rfl

theorem drop_after (hs : s.drop i = a ++ r) : s.drop (i + a.length) = r := by
  rw [← List.drop_drop, hs, List.drop_left]

theorem slice_append (hs : s.drop i = a ++ r) (hstop : i + a.length ≤ stop) :
    slice s ⟨i, stop⟩ = a ++ slice s ⟨i + a.length, stop⟩ := by
  rw [slice, slice, hs, drop_after hs, show stop - i = a.length + (stop - (i + a.length)) by omega,
    List.take_length_add_append]

theorem Cut.lt (h : Cut i s p) : i < p.stop := by
  cases h with
  | tick => exact Nat.lt_succ_self i
  | escaped c h | char _ _ _ h =>
      have := le_of_skip h.skip
      simp only [Pieces.addText]
      omega
  | hole _ h =>
      have := le_of_skip h.skip
      simp only
      omega

theorem Cut.text (h : Cut i r p) (hs : s.drop i = r) :
    slice s ⟨i, p.stop⟩ = p.text ++ p.holes.flatMap (fun hole =>
      '$' :: '{' :: (slice s hole.span ++ '}' :: hole.text.toList)) ++ ['`'] := by
  induction h with
  | tick i r => simp [slice, hs]
  | @escaped i r p c h ih =>
      have := h.lt
      rw [slice_append (a := ['\\', c]) hs (by simp [Pieces.addText]; omega)]
      simpa [Pieces.addText] using ih (drop_after (a := ['\\', c]) hs)
  | @hole i a r p h hp ih =>
      have := hp.lt
      have hsplit : s.drop i = ('$' :: '{' :: (a ++ ['}'])) ++ r := by simpa using hs
      have hinner : slice s ⟨i + 2, i + 2 + a.length⟩ = a := by
        have hopened : s.drop (i + 2) = a ++ '}' :: r := drop_after (a := ['$', '{']) hs
        simp only [slice, hopened, Nat.add_sub_cancel_left, List.take_left]
      rw [slice_append hsplit (by simp; omega)]
      have hrest := ih (by simpa [Nat.add_assoc, Nat.add_comm 2] using drop_after hsplit)
      simp only [List.flatMap_cons, hinner, String.toList_ofList, List.length_cons, List.length_append,
        List.length_nil]
      rw [show i + (a.length + (0 + 1) + 1 + 1) = i + 2 + a.length + 1 by omega, hrest]
      simp
  | @char i c r p _ _ _ h ih =>
      have := h.lt
      rw [slice_append (a := [c]) hs (by simp [Pieces.addText]; omega)]
      simpa [Pieces.addText] using ih (drop_after (a := [c]) hs)

theorem Cut.hole_cases (h : Cut i r p) (hs : s.drop i = r) {hole : RawHole} (hmem : hole ∈ p.holes) :
    hole.span.start ≤ hole.span.stop ∧ hole.span.stop ≤ s.length ∧
      hole.source = String.ofList (trim (slice s hole.span)) := by
  induction h with
  | tick => simp at hmem
  | escaped c h ih => exact ih (by rw [← List.drop_drop, hs]; rfl) hmem
  | @hole i a r p h hp ih =>
      rcases List.mem_cons.1 hmem with rfl | hmem
      · have hlength := congrArg List.length hs
        simp only [List.length_drop, List.length_cons, List.length_append] at hlength
        refine ⟨by simp, by simp only; omega, ?_⟩
        rw [slice, ← List.drop_drop, hs, Nat.add_sub_cancel_left]
        simp
      · refine ih ?_ hmem
        rw [Nat.add_assoc, Nat.add_assoc, ← List.drop_drop, hs, Nat.add_comm 2]
        simp
  | char _ _ _ h ih => exact ih (by rw [← List.drop_drop, hs]; rfl) hmem

end CssExtract.Script

namespace CssExtract.Styled

open Script Text

variable {s : List Char} {i stop : Nat} {filename : Option String}

/-- The location is that of a span within the text, and of no other span. -/
structure Marks (s : List Char) (filename : Option String) (span : Span) (loc : Option Location) : Prop where
  within : span.start ≤ span.stop ∧ span.stop ≤ s.length
  only : ∀ other, loc = some (location s filename other) ↔ other = span

structure TemplateHole.Stands (s : List Char) (filename : Option String) (hole : TemplateHole)
    (span : Span) : Prop where
  loc : Marks s filename span hole.loc
  expr : hole.expr = .raw (String.ofList (trim (slice s span)))

def Template.print (t : Template) (inside : List (List Char)) : List Char :=
  '`' :: (t.first.toList ++ (t.holes.zip inside).flatMap fun (hole, a) =>
    '$' :: '{' :: (a ++ '}' :: hole.text.toList)) ++ ['`']

/-- The template is that of a span of the text: put together again, with the text between the braces of
every expression, it is what stands there. -/
structure Template.Covers (s : List Char) (filename : Option String) (span : Span) (t : Template) : Prop where
  texts : t.texts.length = t.holes.length + 1
  loc : Marks s filename span t.loc
  print : ∃ spans, List.Forall₂ (TemplateHole.Stands s filename) t.holes spans ∧
    slice s span = t.print (spans.map (slice s))

theorem marks_location (hspan : stop ≤ s.length) (hi : i ≤ stop) :
    Marks s filename ⟨i, stop⟩ (some (location s filename ⟨i, stop⟩)) where
  within := ⟨hi, hspan⟩
  only other := by
    simp only [location, Option.some.injEq, Location.mk.injEq, and_true, position_inj]
    constructor
    · rintro ⟨rfl, rfl⟩
      rfl
    · rintro rfl
      exact ⟨rfl, rfl⟩

theorem covers_of_cut {p : Pieces} (hi : s[i]? = some '`') (h : Cut (i + 1) (s.drop (i + 1)) p) :
    (templateOf s filename ⟨⟨i, p.stop⟩, String.ofList p.text, p.holes⟩).Covers s filename ⟨i, p.stop⟩ where
  texts := by simp [Template.texts]
  loc := by
    have := h.lt
    have hend := le_add_length_of_skip h.skip
    have hlt := (List.getElem?_eq_some_iff.1 hi).1
    rw [List.length_drop] at hend
    exact marks_location (by omega) (by omega)
  print := by
    have := h.lt
    refine ⟨p.holes.map (·.span), ?_, ?_⟩
    · rw [templateOf, List.forall₂_map_left_iff, List.forall₂_map_right_iff, List.forall₂_same]
      intro hole hmem
      obtain ⟨hle, hend, hsource⟩ := h.hole_cases rfl hmem
      exact ⟨marks_location hend hle, by rw [hsource]⟩
    · rw [slice_append (a := ['`']) (drop_eq_cons hi) (by simp; omega), List.length_singleton, h.text rfl]
      simp [Template.print, templateOf, List.zip_map', List.flatMap_map]

/-- A template that begins at a backtick is cut into its pieces just if it can be stepped over, and ends
in the same place; what it is cut into, together again, is the text from that backtick to its end. -/
theorem template_covers (hi : s[i]? = some '`') (filename : Option String) :
    (∀ stop, (readTemplate s i).map (·.span.stop) = .ok stop ↔ skipTemplate s i = .ok stop) ∧
      ∀ raw, readTemplate s i = .ok raw →
        (templateOf s filename raw).Covers s filename ⟨i, raw.span.stop⟩ := by
  refine ⟨fun stop => ?_, fun raw h => ?_⟩
  · rw [skipTemplate, ← exists_cut_iff]
    constructor
    · intro h
      obtain ⟨raw, hr, rfl⟩ := map_eq_ok_iff.1 h
      obtain ⟨p, hp, rfl⟩ := readTemplate_eq_ok_iff.1 hr
      exact ⟨p, hp, rfl⟩
    · rintro ⟨p, hp, rfl⟩
      rw [readTemplate_eq_ok_iff.2 ⟨p, hp, rfl⟩]
      rfl
  · obtain ⟨p, hp, rfl⟩ := readTemplate_eq_ok_iff.1 h
    exact covers_of_cut hi hp

def nestedTemplate : List Char := "x`a\\`$\x7b f('\x7d') \x7db$\x7b`$\x7by\x7d`\x7d\n`;".toList

theorem nestedTemplate_covers : nestedTemplate[1]? = some '`' ∧ skipTemplate nestedTemplate 1 = .ok 28 ∧
    ∃ raw, readTemplate nestedTemplate 1 = .ok raw ∧
      raw.holes.map (·.source) = ["f('\x7d')", "`$\x7by\x7d`"] ∧
      (templateOf nestedTemplate none raw).Covers nestedTemplate none ⟨1, 28⟩ := by
  have htick : nestedTemplate[1]? = some '`' := by decide +kernel
  have hread : readTemplate nestedTemplate 1 = .ok ⟨⟨1, 28⟩, "a\\`",
      [⟨"f('\x7d')", ⟨7, 15⟩, "b"⟩, ⟨"`$\x7by\x7d`", ⟨19, 25⟩, "\n"⟩]⟩ := by decide +kernel
  obtain ⟨hstop, hcovers⟩ := template_covers htick none
  refine ⟨htick, (hstop 28).1 (by rw [hread]; rfl), _, hread, rfl, hcovers _ hread⟩

end CssExtract.Styled
