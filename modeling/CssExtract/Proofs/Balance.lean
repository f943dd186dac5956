import CssExtract.Proofs.Enclosure

namespace CssExtract.Script

open Text

inductive StringText (q : Char) : List Char → Prop
  | nil : StringText q []
  | escaped {a : List Char} (c : Char) : StringText q a → StringText q ('\\' :: c :: a)
  | char {c : Char} {a : List Char} (hquote : c ≠ q) (hescape : c ≠ '\\') (hline : c ≠ '\n') :
      StringText q a → StringText q (c :: a)

inductive IsString : List Char → Prop
  | mk {q : Char} {a : List Char} (hq : isQuote q = true) (h : StringText q a) :
      IsString (q :: (a ++ [q]))

inductive IsComment : List Char → Prop
  | line {a : List Char} (h : '\n' ∉ a) : IsComment ('/' :: '/' :: (a ++ ['\n']))
  | block {a : List Char} (h : ¬ ['*', '/'] <:+: a ++ ['*']) :
      IsComment ('/' :: '*' :: (a ++ ['*', '/']))

def OpensComment (s : List Char) : Prop := ['/', '/'] <+: s ∨ ['/', '*'] <+: s

instance (s : List Char) : Decidable (OpensComment s) := inferInstanceAs (Decidable (_ ∨ _))

def isOrdinary (c : Char) : Bool :=
  !isQuote c && c ≠ '`' && (closerOf? c).isNone && !isCloser c

mutual

/-- An opening bracket, what stands in it and the bracket that closes it. -/
inductive IsGroup : List Char → Prop
  | mk {o closer : Char} {a : List Char} (h : closerOf? o = some closer) :
      Contents a → IsGroup (o :: (a ++ [closer]))

inductive Contents : List Char → Prop
  | nil : Contents []
  | string {a b : List Char} (h : IsString a) : Contents b → Contents (a ++ b)
  | template {a b : List Char} : IsTemplate a → Contents b → Contents (a ++ b)
  | comment {a b : List Char} (h : IsComment a) : Contents b → Contents (a ++ b)
  | group {a b : List Char} : IsGroup a → Contents b → Contents (a ++ b)
  | char {c : Char} {b : List Char} (h : isOrdinary c = true) (hc : ¬ OpensComment (c :: b)) :
      Contents b → Contents (c :: b)

inductive IsTemplate : List Char → Prop
  | mk {a : List Char} : TemplateText a → IsTemplate ('`' :: (a ++ ['`']))

inductive TemplateText : List Char → Prop
  | nil : TemplateText []
  | escaped {b : List Char} (c : Char) : TemplateText b → TemplateText ('\\' :: c :: b)
  | hole {a b : List Char} : IsGroup ('{' :: a) → TemplateText b →
      TemplateText ('$' :: '{' :: (a ++ b))
  | char {c : Char} {b : List Char} (htick : c ≠ '`') (hescape : c ≠ '\\')
      (hhole : ¬ (c = '$' ∧ b.head? = some '{')) : TemplateText b → TemplateText (c :: b)

end

/-- What completes an open part. -/
inductive Completes : Frame → List Char → Prop
  | string {q : Char} {a : List Char} (h : StringText q a) : Completes (.string q) (a ++ [q])
  | template {a : List Char} (h : TemplateText a) : Completes .template (a ++ ['`'])
  | lineComment {a : List Char} (h : '\n' ∉ a) : Completes .lineComment (a ++ ['\n'])
  | blockComment {start : Nat} {a : List Char} (h : ¬ ['*', '/'] <:+: a ++ ['*']) :
      Completes (.blockComment start) (a ++ ['*', '/'])
  | group {closer : Char} {a : List Char} (hcloser : isCloser closer = true) (h : Contents a) :
      Completes (.group closer) (a ++ [closer])

inductive CompletesAll : List Frame → List Char → Prop
  | nil : CompletesAll [] []
  | cons {f : Frame} {F : List Frame} {a b : List Char} (h : Completes f a) :
      CompletesAll F b → CompletesAll (f :: F) (a ++ b)

variable {f : Frame} {F G : List Frame} {c d q closer : Char} {next : Option Char} {i j : Nat}
  {a b r s : List Char} {opened : List Frame}

theorem completesAll_cons_iff :
    CompletesAll (f :: F) s ↔ ∃ a b, s = a ++ b ∧ Completes f a ∧ CompletesAll F b :=
  ⟨fun h => by cases h with | cons h hF => exact ⟨_, _, rfl, h, hF⟩,
    fun ⟨_, _, hs, h, hF⟩ => hs ▸ .cons h hF⟩

theorem completesAll_singleton_iff : CompletesAll [f] s ↔ Completes f s := by
  rw [completesAll_cons_iff]
  constructor
  · rintro ⟨a, b, rfl, h, hb⟩
    cases hb
    rwa [List.append_nil]
  · exact fun h => ⟨s, [], by simp, h, .nil⟩

theorem exists_of_completesAll_append (h : CompletesAll (F ++ G) s) :
    ∃ a b, s = a ++ b ∧ CompletesAll F a ∧ CompletesAll G b := by
  induction F generalizing s with
  | nil => exact ⟨[], s, rfl, .nil, h⟩
  | cons f F ih =>
      obtain ⟨a, b, rfl, hf, hb⟩ := completesAll_cons_iff.1 h
      obtain ⟨b, b', rfl, hF, hG⟩ := ih hb
      exact ⟨a ++ b, b', by simp, .cons hf hF, hG⟩

theorem not_infix_cons (hend : ¬ (c = '*' ∧ (a ++ ['*', '/']).head? = some '/'))
    (h : ¬ ['*', '/'] <:+: a ++ ['*']) : ¬ ['*', '/'] <:+: (c :: a) ++ ['*'] := by
  rw [List.cons_append, List.infix_cons_iff, not_or]
  refine ⟨fun hfront => hend ?_, h⟩
  obtain ⟨rfl, hrest⟩ := List.cons_prefix_cons.1 hfront
  cases a with
  | nil => simp at hrest
  | cons d a =>
      obtain ⟨rfl, -⟩ := List.cons_prefix_cons.1 hrest
      simp

theorem not_opensComment (hopens : opens? i c next = none) (hnext : ∀ d ∈ b.head?, next = some d) :
    ¬ OpensComment (c :: b) := by
  obtain ⟨-, -, hslash⟩ := opens?_eq_none_iff.1 hopens
  rintro (hfront | hfront)
  all_goals
    obtain ⟨rfl, t, rfl⟩ := List.cons_prefix_cons.1 hfront
    have := hnext _ rfl
    simp_all

theorem isOrdinary_of_opens? (hopens : opens? i c next = none) (hopener : closerOf? c = none)
    (hcloser : isCloser c = false) : isOrdinary c = true := by
  obtain ⟨hquote, htick, -⟩ := opens?_eq_none_iff.1 hopens
  simp_all [isOrdinary, isQuote]

theorem contents_of_opens (hopens : Frame.Opens i c next 1 f) (ha : Completes f a) (hb : Contents b) :
    Contents (c :: (a ++ b)) := by
  cases hopens with
  | string hquote =>
      cases ha with
      | string ha => exact .string (.mk (by simpa [isQuote] using hquote) ha) hb
  | template htick =>
      subst htick
      cases ha with
      | template ha => exact .template (.mk ha) hb

theorem contents_of_opens_comment (hopens : Frame.Opens i c (some d) 2 f) (ha : Completes f a)
    (hb : Contents b) : Contents (c :: d :: (a ++ b)) := by
  cases hopens with
  | lineComment hfirst hsecond =>
      obtain rfl := Option.some.inj hsecond
      subst hfirst
      cases ha with
      | lineComment ha => exact .comment (.line ha) hb
  | blockComment hfirst hsecond =>
      obtain rfl := Option.some.inj hsecond
      subst hfirst
      cases ha with
      | blockComment ha => exact .comment (.block ha) hb

theorem exists_contents (h : Completes (.group closer) s) :
    ∃ a, s = a ++ [closer] ∧ isCloser closer = true ∧ Contents a := by
  cases h with
  | group hcloser h => exact ⟨_, rfl, hcloser, h⟩

theorem exists_completes_group (h : CompletesAll [f, .group closer] s) :
    ∃ a b, s = a ++ b ++ [closer] ∧ isCloser closer = true ∧ Completes f a ∧ Contents b := by
  obtain ⟨a, t, rfl, ha, ht⟩ := completesAll_cons_iff.1 h
  obtain ⟨b, rfl, hcloser, hb⟩ := exists_contents (completesAll_singleton_iff.1 ht)
  exact ⟨a, b, (List.append_assoc _ _ _).symm, hcloser, ha, hb⟩

theorem Completes.cons_of_move (hmove : Frame.Moves i c next f 1 opened)
    (h : CompletesAll opened a) (hnext : ∀ d ∈ a.head?, next = some d) : Completes f (c :: a) := by
  cases hmove with
  | stringEnd =>
      cases h
      exact Completes.string .nil
  | stringChar hquote hescape hline =>
      cases completesAll_singleton_iff.1 h with
      | string ha => exact .string (.char hquote hescape hline ha)
  | templateEnd htick =>
      cases h
      exact htick ▸ Completes.template .nil
  | templateChar htick hescape hhole =>
      cases completesAll_singleton_iff.1 h with
      | template hb =>
          refine .template (.char htick hescape (fun hopen => hhole ⟨hopen.1, hnext '{' ?_⟩) hb)
          simp [List.head?_append, hopen.2]
  | lineEnd hline =>
      cases h
      exact hline ▸ Completes.lineComment (a := []) (by simp)
  | lineChar hline =>
      cases completesAll_singleton_iff.1 h with
      | @lineComment b hb => exact .lineComment (a := c :: b) (by simp [hb, Ne.symm hline])
  | blockChar hstays =>
      cases completesAll_singleton_iff.1 h with
      | @blockComment _ b hb =>
          exact .blockComment (a := c :: b)
            (not_infix_cons (fun hclose => hstays ⟨hclose.1, hnext '/' hclose.2⟩) hb)
  | groupOpens hopens =>
      obtain ⟨x, b, rfl, hcloser, hx, hb⟩ := exists_completes_group h
      exact .group hcloser (contents_of_opens hopens hx hb)
  | groupNested hopener =>
      obtain ⟨x, b, rfl, hcloser, hx, hb⟩ := exists_completes_group h
      obtain ⟨x, rfl, -, hx⟩ := exists_contents hx
      exact .group hcloser (.group (.mk hopener hx) hb)
  | groupEnd hcloser =>
      cases h
      exact Completes.group (a := []) hcloser .nil
  | groupChar hopens hopener hplain =>
      obtain ⟨b, rfl, hcloser, hb⟩ := exists_contents (completesAll_singleton_iff.1 h)
      rw [← List.cons_append]
      refine .group hcloser (.char (isOrdinary_of_opens? hopens hopener hplain)
        (not_opensComment hopens fun d hd => hnext d ?_) hb)
      rw [List.head?_append, Option.mem_def.1 hd]
      rfl

theorem Completes.cons_cons_of_move (hmove : Frame.Moves i c (some d) f 2 opened)
    (h : CompletesAll opened a) : Completes f (c :: d :: a) := by
  cases hmove with
  | stringEscape hescape =>
      subst hescape
      cases completesAll_singleton_iff.1 h with
      | string ha => exact .string (.escaped d ha)
  | templateEscape hescape =>
      subst hescape
      cases completesAll_singleton_iff.1 h with
      | template ha => exact .template (.escaped d ha)
  | templateHole hdollar hbrace =>
      obtain rfl := Option.some.inj hbrace
      subst hdollar
      obtain ⟨x, y, rfl, hx, hy⟩ := completesAll_cons_iff.1 h
      obtain ⟨x, rfl, -, hx⟩ := exists_contents hx
      cases completesAll_singleton_iff.1 hy with
      | template hb =>
          rw [← List.append_assoc]
          exact .template (.hole (.mk rfl hx) hb)
  | blockEnd hstar hslash =>
      obtain rfl := Option.some.inj hslash
      subst hstar
      cases h
      exact .blockComment (a := []) (by decide)
  | groupOpens hopens =>
      obtain ⟨x, b, rfl, hcloser, hx, hb⟩ := exists_completes_group h
      exact .group hcloser (contents_of_opens_comment hopens hx hb)

/-- What is read until all open parts are closed completes them. -/
theorem completesAll_of_skip (h : skip i F s = .ok j) (hend : F.getLast? ≠ some .lineComment) :
    ∃ a r, s = a ++ r ∧ j = i + a.length ∧ CompletesAll F a := by
  -- on the length, since a step may read two characters
  induction hn : s.length using Nat.strongRecOn generalizing s i F with
  | _ n ih =>
    cases F with
    | nil => exact ⟨[], s, rfl, by simpa [skip] using h.symm, .nil⟩
    | cons f F =>
        cases s with
        | nil =>
            obtain rfl : i = j := (eq_of_atEnd (by rwa [skip_nil] at h)).symm
            have := eq_nil_of_skip_eq h (.inr hend)
            simp at this
        | cons c cs =>
            have hlast {width : Nat} {opened : List Frame} {next : Option Char}
                (hmove : Frame.Moves i c next f width opened) :
                (opened ++ F).getLast? ≠ some .lineComment := by
              rcases hmove.getLast? (F := F) with hnil | hlast
              · simp [hnil]
              · rwa [hlast]
            obtain ⟨opened, hmove, hrest⟩ | ⟨opened, d, cs, rfl, hmove, hrest⟩ := skip_cases h
            · obtain ⟨a, r, rfl, rfl, ha⟩ := ih cs.length (by simp [← hn]) hrest (hlast hmove) rfl
              obtain ⟨x, y, rfl, hx, hy⟩ := exists_of_completesAll_append ha
              refine ⟨c :: (x ++ y), r, rfl, by simp; omega, ?_⟩
              rw [← List.cons_append]
              refine .cons (.cons_of_move hmove hx fun d hd => ?_) hy
              rw [List.append_assoc, List.head?_append, Option.mem_def.1 hd]
              rfl
            · have hlt : cs.length < n := by
                simp only [← hn, List.length_cons]
                omega
              obtain ⟨a, r, rfl, rfl, ha⟩ := ih cs.length hlt hrest (hlast hmove) rfl
              obtain ⟨x, y, rfl, hx, hy⟩ := exists_of_completesAll_append ha
              refine ⟨c :: d :: (x ++ y), r, rfl, by simp; omega, ?_⟩
              rw [← List.cons_append, ← List.cons_append]
              exact .cons (.cons_cons_of_move hmove hx) hy

theorem StringText.closes (h : StringText q a) (hq : isQuote q = true) :
    Closes (.string q) (a ++ [q]) := by
  have hback := ne_backslash_of_isQuote hq
  intro i g r hkind
  obtain rfl : g = .string q := by cases g <;> simp_all [Frame.kind]
  induction h generalizing i with
  | nil =>
      rw [List.nil_append, List.singleton_append, skip_move (.stringEnd hback)]
      simp [skip]
  | escaped c _ ih =>
      rw [List.cons_append, List.cons_append, List.cons_append, List.cons_append,
        skip_move_two (.stringEscape rfl)]
      exact (ih (i + 2)).trans (congrArg Except.ok (by simp; omega))
  | char hquote hescape hline _ ih =>
      rw [List.cons_append, List.cons_append,
        skip_move (.stringChar hquote hescape hline)]
      exact (ih (i + 1)).trans (congrArg Except.ok (by simp; omega))

theorem closes_lineComment (h : '\n' ∉ a) : Closes .lineComment (a ++ ['\n']) := by
  intro i g r hkind
  obtain rfl : g = .lineComment := by cases g <;> simp_all [Frame.kind]
  induction a generalizing i with
  | nil =>
      rw [List.nil_append, List.singleton_append, skip_move (.lineEnd rfl)]
      simp [skip]
  | cons c a ih =>
      obtain ⟨hc, ha⟩ : c ≠ '\n' ∧ '\n' ∉ a := by simpa [eq_comm] using h
      rw [List.cons_append, List.cons_append, skip_move (.lineChar hc)]
      exact (ih ha (i + 1)).trans (congrArg Except.ok (by simp; omega))

theorem closes_blockComment (h : ¬ ['*', '/'] <:+: a ++ ['*']) :
    Closes (.blockComment 0) (a ++ ['*', '/']) := by
  intro i g r hkind
  obtain ⟨start, rfl⟩ : ∃ start, g = .blockComment start := by cases g <;> simp_all [Frame.kind]
  induction a generalizing i with
  | nil =>
      rw [List.nil_append, List.cons_append, List.singleton_append,
        skip_move_two (.blockEnd rfl rfl)]
      simp [skip]
  | cons c a ih =>
      rw [List.cons_append, List.infix_cons_iff, not_or] at h
      have hend : ¬ (c = '*' ∧ (a ++ ['*', '/'] ++ r).head? = some '/') := by
        rintro ⟨rfl, hhead⟩
        cases a <;> simp_all
      rw [List.cons_append, List.cons_append, skip_move (.blockChar hend)]
      exact (ih h.2 (i + 1)).trans (congrArg Except.ok (by simp; omega))

theorem IsString.part (h : IsString a) : Part a := by
  cases h with
  | mk hq h => exact .string hq (h.closes hq)

theorem IsComment.part (h : IsComment a) : Part a := by
  cases h with
  | line h => exact .comment (.line (closes_lineComment h))
  | block h => exact .comment (.block (closes_blockComment h))

theorem opens?_ordinary (h : isOrdinary c = true) (hc : ¬ OpensComment (c :: s)) (i : Nat) :
    opens? i c s.head? = none := by
  simp only [isOrdinary, isQuote, Bool.and_eq_true, Bool.not_eq_true', Bool.or_eq_false_iff,
    decide_eq_false_iff_not, decide_eq_true_eq, Option.isNone_iff_eq_none] at h
  obtain ⟨⟨⟨⟨hsingle, hdouble⟩, htick⟩, -⟩, -⟩ := h
  refine opens?_eq_none_iff.2 ⟨by simp [hsingle, hdouble], htick, ?_⟩
  -- the two characters that a comment begins with
  rintro ⟨rfl, hsecond | hsecond⟩
  all_goals
    obtain ⟨s, rfl⟩ := List.head?_eq_some_iff.1 hsecond
    exact hc (by simp [OpensComment])

theorem not_bracket_of_isOrdinary (h : isOrdinary c = true) : closerOf? c = none ∧ isCloser c = false := by
  simp only [isOrdinary, Bool.and_eq_true, Bool.not_eq_true', Option.isNone_iff_eq_none] at h
  exact ⟨h.1.2, h.2⟩

theorem skip_ordinary (h : isOrdinary c = true) (hc : ¬ OpensComment (c :: s)) (i : Nat) :
    skip i (.group closer :: F) (c :: s) = skip (i + 1) (.group closer :: F) s := by
  obtain ⟨hopener, hcloser⟩ := not_bracket_of_isOrdinary h
  rw [skip_move (.groupChar (opens?_ordinary h hc i) hopener hcloser)]
  rfl

theorem not_opensComment_append (hcloser : isCloser closer = true) (h : ¬ OpensComment (c :: b))
    (r : List Char) : ¬ OpensComment (c :: (b ++ closer :: r)) := by
  cases b with
  | nil =>
      simp only [isCloser, Bool.or_eq_true, decide_eq_true_eq] at hcloser
      rcases hcloser with (rfl | rfl) | rfl <;> simp [OpensComment]
  | cons d b => simpa [OpensComment] using h

theorem closes_ordinary (h : isOrdinary c = true) (hc : ¬ OpensComment (c :: b))
    (hcloser : isCloser closer = true) (hb : Closes (.group closer) (b ++ [closer])) :
    Closes (.group closer) (c :: (b ++ [closer])) := by
  intro i g r hkind
  obtain rfl : g = .group closer := by cases g <;> simp_all [Frame.kind]
  have hplain := not_opensComment_append hcloser hc r
  rw [List.cons_append, List.append_assoc, List.singleton_append, skip_ordinary h hplain]
  have hrest := hb (i + 1) _ r rfl
  rw [List.append_assoc, List.singleton_append] at hrest
  exact hrest.trans (congrArg Except.ok (by simp; omega))

theorem isCloser_of_closerOf? (h : closerOf? c = some closer) : isCloser closer = true := by
  simp only [closerOf?] at h
  split at h
  all_goals first | (obtain rfl := Option.some.inj h; rfl) | simp at h

mutual

theorem IsGroup.exists_closes {a : List Char} : IsGroup a → ∃ o closer b, a = o :: b ∧
    closerOf? o = some closer ∧ Closes (.group closer) b
  | .mk h ha => ⟨_, _, _, rfl, h, ha.closes (isCloser_of_closerOf? h)⟩

theorem IsTemplate.part {a : List Char} : IsTemplate a → Part a
  | .mk ha => .template ha.closes

theorem Contents.closes {a : List Char} {closer : Char} (hcloser : isCloser closer = true) :
    Contents a → Closes (.group closer) (a ++ [closer])
  | .nil => Neutral.nil.closes hcloser
  | .string h hb => by
      rw [List.append_assoc]
      exact h.part.neutral.closes_append (hb.closes hcloser)
  | .template h hb => by
      rw [List.append_assoc]
      exact h.part.neutral.closes_append (hb.closes hcloser)
  | .comment h hb => by
      rw [List.append_assoc]
      exact h.part.neutral.closes_append (hb.closes hcloser)
  | .group h hb => by
      obtain ⟨o, k, a, rfl, ho, ha⟩ := h.exists_closes
      rw [List.append_assoc]
      exact (Neutral.group ho ha).closes_append (hb.closes hcloser)
  | .char h hc hb => closes_ordinary h hc hcloser (hb.closes hcloser)

theorem TemplateText.closes {a : List Char} : TemplateText a → Closes .template (a ++ ['`'])
  | .nil => by
      intro i g r hkind
      obtain rfl : g = .template := by cases g <;> simp_all [Frame.kind]
      rw [List.nil_append, List.singleton_append, skip_move (.templateEnd rfl)]
      simp [skip]
  | .escaped (b := b) c hb => by
      intro i g r hkind
      obtain rfl : g = .template := by cases g <;> simp_all [Frame.kind]
      rw [List.cons_append, List.cons_append, List.cons_append, List.cons_append,
        skip_move_two (.templateEscape rfl)]
      exact (hb.closes (i + 2) _ r rfl).trans (congrArg Except.ok (by simp; omega))
  | .hole (b := b) h hb => by
      intro i g r hkind
      obtain rfl : g = .template := by cases g <;> simp_all [Frame.kind]
      obtain ⟨o, k, a, hsame, ho, ha⟩ := h.exists_closes
      obtain ⟨rfl, rfl⟩ := List.cons.inj hsame
      obtain rfl : '}' = k := Option.some.inj ho
      rw [List.cons_append, List.cons_append, List.cons_append, List.cons_append,
        skip_move_two (.templateHole rfl rfl), List.cons_append,
        List.append_assoc, List.append_assoc, ha.skip rfl, ← List.append_assoc]
      exact (hb.closes _ _ r rfl).trans (congrArg Except.ok (by simp; omega))
  | .char (c := c) (b := b) htick hescape hhole hb => by
      intro i g r hkind
      obtain rfl : g = .template := by cases g <;> simp_all [Frame.kind]
      have hnext : ¬ (c = '$' ∧ (b ++ ['`'] ++ r).head? = some '{') := by
        rintro ⟨rfl, hnext⟩
        cases b <;> simp_all
      rw [List.cons_append, List.cons_append, skip_move (.templateChar htick hescape hnext)]
      exact (hb.closes (i + 1) _ r rfl).trans (congrArg Except.ok (by simp; omega))

end

/-- A text of the kind stands between two offsets. -/
def Covers (P : List Char → Prop) (s : List Char) (i j : Nat) : Prop :=
  i ≤ j ∧ j ≤ s.length ∧ P (slice s ⟨i, j⟩)

def Delimits (P : List Char → Prop) (s : List Char) (i : Nat) : Option (Except ScanError Nat) → Prop
  | some (.ok j) => Covers P s i j ∧ ∀ k, Covers P s i k → k = j
  | some (.error _) => ∀ j, ¬ Covers P s i j
  | none => False

theorem isGroup_cons_iff (h : closerOf? c = some closer) :
    IsGroup (c :: a) ↔ Completes (.group closer) a := by
  constructor
  · generalize hs : c :: a = s
    rintro ⟨ho, ha⟩
    obtain ⟨rfl, rfl⟩ := List.cons.inj hs
    obtain rfl := Option.some.inj (h.symm.trans ho)
    exact .group (isCloser_of_closerOf? h) ha
  · rintro (_ | _ | _ | _ | ⟨-, ha⟩)
    exact .mk h ha

theorem isString_cons_iff (hq : isQuote q = true) : IsString (q :: a) ↔ Completes (.string q) a := by
  constructor
  · generalize hs : q :: a = s
    rintro ⟨-, ha⟩
    obtain ⟨rfl, rfl⟩ := List.cons.inj hs
    exact .string ha
  · rintro (ha | _ | _ | _ | _)
    exact .mk hq ha

theorem isTemplate_cons_iff : IsTemplate ('`' :: a) ↔ Completes .template a := by
  constructor
  · generalize hs : '`' :: a = s
    rintro ⟨ha⟩
    obtain ⟨-, rfl⟩ := List.cons.inj hs
    exact .template ha
  · rintro (_ | ha | _ | _ | _)
    exact .mk ha

theorem delimits_of_completes {P : List Char → Prop} (hs : s.drop i = c :: r) (hf : f ≠ .lineComment)
    (hnil : ¬ P []) (hP : ∀ a, P (c :: a) ↔ Completes f a) (hcloses : ∀ a, Completes f a → Closes f a) :
    Delimits P s i (some (skip (i + 1) [f] r)) := by
  have hlength : s.length = i + (r.length + 1) := by
    have := congrArg List.length hs
    simp only [List.length_drop, List.length_cons] at this
    omega
  have hread (j : Nat) : skip (i + 1) [f] r = .ok j ↔ Covers P s i j := by
    constructor
    · intro h
      obtain ⟨a, t, rfl, rfl, ha⟩ := completesAll_of_skip h (by simpa using hf)
      refine ⟨by omega, by simp [hlength]; omega, ?_⟩
      rw [slice, hs, show i + 1 + a.length - i = a.length + 1 by omega, List.take_succ_cons,
        List.take_left]
      exact (hP a).2 (completesAll_singleton_iff.1 ha)
    · rintro ⟨hle, hend, hPs⟩
      rw [slice, hs] at hPs
      cases hn : j - i with
      | zero => simp [hn, hnil] at hPs
      | succ n =>
          rw [hn, List.take_succ_cons, hP] at hPs
          have hskip := hcloses _ hPs (i + 1) f (r.drop n) rfl
          rw [List.take_append_drop] at hskip
          exact hskip.trans (congrArg Except.ok (by simp; omega))
  cases hskip : skip (i + 1) [f] r with
  | ok j => exact ⟨(hread j).1 hskip, fun k hk => Except.ok.inj (((hread k).2 hk).symm.trans hskip)⟩
  | error e =>
      intro j hj
      simp [(hread j).2 hj] at hskip

theorem drop_eq_cons (h : s[i]? = some c) : s.drop i = c :: s.drop (i + 1) := by
  obtain ⟨hlt, rfl⟩ := List.getElem?_eq_some_iff.1 h
  exact List.drop_eq_getElem_cons hlt

/-- From an opening bracket, a quote or a backtick the scanner reads exactly the group, the string or
the template of the grammar that begins there; it fails only if there is none. -/
theorem skip_exact (s : List Char) (i : Nat) :
    (∀ c ∈ s[i]?, (closerOf? c).isSome → Delimits IsGroup s i (skipGroup? s i)) ∧
    (∀ q ∈ s[i]?, isQuote q = true → Delimits IsString s i (skipString? s i)) ∧
    (s[i]? = some '`' → Delimits IsTemplate s i (some (skipTemplate s i))) := by
  refine ⟨fun c hc hopener => ?_, fun q hq hquote => ?_, fun htick => ?_⟩
  · obtain ⟨closer, hcloser⟩ := Option.isSome_iff_exists.1 hopener
    have hs := drop_eq_cons hc
    rw [skipGroup?, hs]
    simp only [hcloser, Option.map_some]
    refine delimits_of_completes hs (by simp) (by rintro ⟨⟩) (fun a => isGroup_cons_iff hcloser) ?_
    rintro _ (_ | _ | _ | _ | ⟨hclosing, ha⟩)
    exact ha.closes hclosing
  · have hs := drop_eq_cons hq
    rw [skipString?, hs]
    refine delimits_of_completes hs (by simp) (by rintro ⟨⟩) (fun a => isString_cons_iff hquote) ?_
    rintro _ (ha | _ | _ | _ | _)
    exact ha.closes hquote
  · refine delimits_of_completes (drop_eq_cons htick) (by simp) (by rintro ⟨⟩)
      (fun a => isTemplate_cons_iff) ?_
    rintro _ (_ | ha | _ | _ | _)
    exact ha.closes

def mixedText : List Char := "(a['\\']'], `x${ {} }`) /* ) */".toList

theorem mixedText_delimited :
    Delimits IsGroup mixedText 0 (some (.ok 22)) ∧ Delimits IsString mixedText 3 (some (.ok 8)) ∧
      Delimits IsTemplate mixedText 11 (some (.ok 21)) := by
  have hgroup : skipGroup? mixedText 0 = some (.ok 22) := by decide +kernel
  have hstring : skipString? mixedText 3 = some (.ok 8) := by decide +kernel
  have htemplate : skipTemplate mixedText 11 = .ok 21 := by decide +kernel
  exact ⟨hgroup ▸ (skip_exact mixedText 0).1 '(' (by decide +kernel) (by decide),
    hstring ▸ (skip_exact mixedText 3).2.1 '\'' (by decide +kernel) (by decide),
    htemplate ▸ (skip_exact mixedText 11).2.2 (by decide +kernel)⟩

end CssExtract.Script
