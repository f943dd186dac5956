import CssExtract.Proofs.Balance
import CssExtract.Proofs.Rescan
import CssExtract.Proofs.TemplatePieces
import Mathlib.Logic.Relation

namespace CssExtract.Script

open Text

variable {source tag a s : List Char} {c : Char} {i j k stop : Nat} {site : RawSite} {sites : List RawSite}
  {found : Option RawSite}

def scanAt (source tag : List Char) (i : Nat) : Except ScanError (Option RawSite × Nat) :=
  match source.drop i with
  | [] => .ok (none, i)
  | c :: s =>
    match opens? i c s.head? with
    | some (width, frame) => (skip (i + width) [frame] (s.drop (width - 1))).map (none, ·)
    | none =>
      if startsTag tag (source.take i).getLast? (c :: s) then do
        match ← readSite? source i tag.length with
        | some site => .ok (some site, site.span.stop)
        | none => .ok (none, i + tag.length)
      else .ok (none, i + 1)

def Next (source tag : List Char) (i j : Nat) : Prop :=
  i < source.length ∧ ∃ site, scanAt source tag i = .ok (site, j)

def Visits (source tag : List Char) (i : Nat) : Prop := Relation.ReflTransGen (Next source tag) 0 i

theorem drop_cons_length (hs : source.drop i = c :: s) : i + (s.length + 1) = source.length := by
  have hlength := congrArg List.length hs
  simp only [List.length_drop, List.length_cons] at hlength
  omega

/-- The scan is at an offset just where it would be after stepping over all before it. -/
theorem sitesFrom_at (hs : source.drop i = c :: s) (hi : i < j) (hj : j ≤ source.length) :
    sitesFrom source tag (i + 1) (some c) (j - (i + 1)) s =
      sitesFrom source tag j (source.take j).getLast? 0 (source.drop j) := by
  have hlength := drop_cons_length hs
  obtain ⟨a, r, rfl, rfl⟩ : ∃ a r, s = a ++ r ∧ j = i + (c :: a).length :=
    ⟨s.take (j - (i + 1)), s.drop (j - (i + 1)), by simp, by simp; omega⟩
  have hbefore : source.take (i + (c :: a).length) = source.take i ++ c :: a := by
    rw [List.take_add, hs, List.length_cons, List.take_succ_cons, List.take_left]
  rw [show i + (c :: a).length - (i + 1) = a.length by simp; omega, sitesFrom_cons_append, hbefore,
    ← List.drop_drop, hs]
  simp [List.getLast?_append, List.getLast?_cons]

/-- What a step of the scan does. -/
inductive StepAt (source tag : List Char) (i : Nat) : Option RawSite → Nat → Prop
  | part {c : Char} {s : List Char} {width j : Nat} {frame : Frame} (hs : source.drop i = c :: s)
      (hopens : opens? i c s.head? = some (width, frame))
      (hskip : skip (i + width) [frame] (s.drop (width - 1)) = .ok j) : StepAt source tag i none j
  | site {site : RawSite} (hstart : startsTag tag (source.take i).getLast? (source.drop i) = true)
      (hsite : readSite? source i tag.length = .ok (some site)) : StepAt source tag i (some site) site.span.stop
  | tag (hstart : startsTag tag (source.take i).getLast? (source.drop i) = true) :
      StepAt source tag i none (i + tag.length)
  | char : StepAt source tag i none (i + 1)

theorem stepAt_of_scanAt (hi : i < source.length) (h : scanAt source tag i = .ok (found, j)) :
    StepAt source tag i found j := by
  obtain ⟨c, s, hs⟩ : ∃ c s, source.drop i = c :: s := ⟨_, _, List.drop_eq_getElem_cons hi⟩
  simp only [scanAt, hs] at h
  split at h
  · rename_i width frame hopens
    obtain ⟨stop, hskip, hstep⟩ := map_eq_ok_iff.1 h
    obtain ⟨rfl, rfl⟩ := Prod.mk.inj hstep
    exact .part hs hopens hskip
  · split_ifs at h with hstart
    · rw [← hs] at hstart
      obtain ⟨result, hsite, h⟩ := bind_eq_ok_iff.1 h
      cases result with
      | none =>
          obtain ⟨rfl, rfl⟩ := Prod.mk.inj (Except.ok.inj h)
          exact .tag hstart
      | some site =>
          obtain ⟨rfl, rfl⟩ := Prod.mk.inj (Except.ok.inj h)
          exact .site hstart hsite
    · obtain ⟨rfl, rfl⟩ := Prod.mk.inj (Except.ok.inj h)
      exact .char

theorem scanAt_bounds (htag : tag ≠ []) (hi : i < source.length)
    (h : scanAt source tag i = .ok (found, j)) : i < j ∧ j ≤ source.length := by
  have hpos := List.length_pos_iff.2 htag
  cases stepAt_of_scanAt hi h with
  | @part c s width _ _ hs hopens hskip =>
      have hlength := drop_cons_length hs
      have hlow := le_of_skip hskip
      have hhigh := le_add_length_of_skip hskip
      rw [List.length_drop] at hhigh
      rcases (opens?_cases hopens).2 with rfl | ⟨rfl, hnext⟩
      · omega
      · cases s with
        | nil => simp at hnext
        | cons d s =>
            simp only [List.length_cons] at hhigh hlength
            omega
  | site hstart hsite =>
      have hfits := startsTag_length hstart
      rw [List.length_drop] at hfits
      have hbounds := readSite?_bounds hsite (by omega)
      omega
  | tag hstart =>
      have hfits := startsTag_length hstart
      rw [List.length_drop] at hfits
      omega
  | char => omega

theorem sitesFrom_step (htag : tag ≠ []) (hi : i < source.length) :
    sitesFrom source tag i (source.take i).getLast? 0 (source.drop i) = (do
      let (found, j) ← scanAt source tag i
      let rest ← sitesFrom source tag j (source.take j).getLast? 0 (source.drop j)
      .ok (found.toList ++ rest)) := by
  obtain ⟨c, s, hs⟩ : ∃ c s, source.drop i = c :: s := ⟨_, _, List.drop_eq_getElem_cons hi⟩
  have hpos := List.length_pos_iff.2 htag
  -- where the step goes on, the scan does
  have later {found : Option RawSite} {j : Nat} (h : scanAt source tag i = .ok (found, j)) :
      sitesFrom source tag (i + 1) (some c) (j - (i + 1)) s =
        sitesFrom source tag j (source.take j).getLast? 0 (source.drop j) :=
    have hbounds := scanAt_bounds htag hi h
    sitesFrom_at hs hbounds.1 hbounds.2
  rw [hs, sitesFrom]
  cases hopens : opens? i c s.head? with
  | some opened =>
      obtain ⟨width, frame⟩ := opened
      cases hskip : skip (i + width) [frame] (s.drop (width - 1)) with
      | error e => simp [scanAt, hs, hopens, hskip, bind, Except.bind, Except.map]
      | ok stop =>
          have hat : scanAt source tag i = .ok (none, stop) := by
            simp [scanAt, hs, hopens, hskip, Except.map]
          simp only [hskip, hat, bind, Except.bind, later hat]
          cases sitesFrom source tag stop (source.take stop).getLast? 0 (source.drop stop) <;> rfl
  | none =>
      by_cases hstart : startsTag tag (source.take i).getLast? (c :: s) = true
      · cases hsite : readSite? source i tag.length with
        | error e => simp [scanAt, hs, hopens, hstart, hsite, bind, Except.bind]
        | ok found =>
            cases found with
            | none =>
                have hat : scanAt source tag i = .ok (none, i + tag.length) := by
                  simp [scanAt, hs, hopens, hstart, hsite, bind, Except.bind]
                simp only [hstart, if_true, hat, bind, Except.bind, ← later hat, List.isEmpty_iff, htag, if_false]
                rw [show i + tag.length - (i + 1) = tag.length - 1 by omega]
                cases sitesFrom source tag (i + 1) (some c) (tag.length - 1) s <;> rfl
            | some site =>
                have hat : scanAt source tag i = .ok (some site, site.span.stop) := by
                  simp [scanAt, hs, hopens, hstart, hsite, bind, Except.bind]
                simp only [hstart, if_true, hat, bind, Except.bind, later hat]
                rfl
      · have hat : scanAt source tag i = .ok (none, i + 1) := by
          simp [scanAt, hs, hopens, hstart]
        have hrest := later hat
        rw [Nat.sub_self] at hrest
        simp only [hstart, hat, bind, Except.bind, hrest]
        cases sitesFrom source tag (i + 1) (source.take (i + 1)).getLast? 0 (source.drop (i + 1)) <;> rfl

theorem mem_sitesFrom_iff (htag : tag ≠ []) (hi : i ≤ source.length)
    (h : sitesFrom source tag i (source.take i).getLast? 0 (source.drop i) = .ok sites) :
    site ∈ sites ↔ ∃ k j, Relation.ReflTransGen (Next source tag) i k ∧ k < source.length ∧
      scanAt source tag k = .ok (some site, j) := by
  induction hn : source.length - i using Nat.strongRecOn generalizing i sites with
  | _ n ih =>
    obtain rfl | hlt := Nat.eq_or_lt_of_le hi
    · obtain rfl : [] = sites := by simpa [sitesFrom] using h
      refine ⟨fun hmem => absurd hmem List.not_mem_nil, ?_⟩
      rintro ⟨k, j, hreach, hk, -⟩
      obtain rfl | ⟨m, ⟨hlt, -⟩, -⟩ := Relation.ReflTransGen.cases_head hreach
      · exact absurd hk (Nat.lt_irrefl _)
      · exact absurd hlt (Nat.lt_irrefl _)
    · rw [sitesFrom_step htag hlt] at h
      obtain ⟨⟨found, j⟩, hat, h⟩ := bind_eq_ok_iff.1 h
      obtain ⟨rest, hrest, h⟩ := bind_eq_ok_iff.1 h
      obtain rfl := Except.ok.inj h
      obtain ⟨hij, hj⟩ := scanAt_bounds htag hlt hat
      rw [List.mem_append, ih _ (by omega) hj hrest rfl, Option.mem_toList]
      constructor
      · rintro (hfound | ⟨k, m, hreach, hk, hsite⟩)
        · rw [Option.mem_def.1 hfound] at hat
          exact ⟨i, j, .refl, hlt, hat⟩
        · exact ⟨k, m, .head ⟨hlt, found, hat⟩ hreach, hk, hsite⟩
      · rintro ⟨k, m, hreach, hk, hsite⟩
        obtain rfl | ⟨j', ⟨-, found', hat'⟩, hreach⟩ := Relation.ReflTransGen.cases_head hreach
        · obtain ⟨rfl, -⟩ := Prod.mk.inj (Except.ok.inj (hat.symm.trans hsite))
          exact .inl rfl
        · obtain ⟨-, rfl⟩ := Prod.mk.inj (Except.ok.inj (hat.symm.trans hat'))
          exact .inr ⟨k, m, hreach, hk, hsite⟩

theorem next_unique : Relator.RightUnique (Next source tag) := by
  rintro i j k ⟨-, found, hj⟩ ⟨-, found', hk⟩
  exact (Prod.mk.inj (Except.ok.inj (hj.symm.trans hk))).2

theorem le_of_reaches (htag : tag ≠ []) (h : Relation.ReflTransGen (Next source tag) i j) : i ≤ j := by
  induction h with
  | refl => exact Nat.le_refl i
  | tail _ hnext ih =>
      obtain ⟨hlt, found, hat⟩ := hnext
      exact ih.trans (scanAt_bounds htag hlt hat).1.le

theorem Visits.le_of_lt (htag : tag ≠ []) (hi : Visits source tag i) (hk : Visits source tag k)
    (hnext : Next source tag i j) (hlt : i < k) : j ≤ k := by
  obtain hreach | hreach := Relation.ReflTransGen.total_of_right_unique next_unique hi hk
  · obtain rfl | ⟨m, hm, hreach⟩ := Relation.ReflTransGen.cases_head hreach
    · exact absurd hlt (Nat.lt_irrefl _)
    · obtain rfl := next_unique hnext hm
      exact le_of_reaches htag hreach
  · exact absurd (le_of_reaches htag hreach) (Nat.not_le.2 hlt)

theorem scanAt_part (tag : List Char) {frame : Frame} {n : Nat} (h : part? (source.drop i) = some (frame, n)) :
    i < source.length ∧ scanAt source tag i = .ok (none, i + n) := by
  cases hs : source.drop i with
  | nil => simp [hs, part?] at h
  | cons c s =>
      have hlength := drop_cons_length hs
      refine ⟨by omega, ?_⟩
      rw [hs] at h
      obtain ⟨width, hopens, hskip⟩ := part?_eq_some_iff.1 h
      obtain ⟨a, r, hsplit, rfl, hpart⟩ := part_cases (i := 0) hopens (by rwa [Nat.zero_add])
      rw [Nat.zero_add]
      obtain hpart | ⟨rfl, hend⟩ := hpart
      · obtain ⟨width, frame, hopens, hskip⟩ := hpart.exists_opens hsplit i
        simp only [scanAt, hs, hopens, hskip]
        rfl
      · rw [List.append_nil] at hsplit
        rw [← hsplit] at hend ⊢
        obtain ⟨hopens, hskip⟩ := hend.exists_opens i
        simp only [scanAt, hs, hopens, hskip]
        rfl

inductive IsGap : List Char → Prop
  | nil : IsGap []
  | blank {c : Char} {g : List Char} (h : isBlank c = true) : IsGap g → IsGap (c :: g)
  | comment {a g : List Char} (h : IsComment a) : IsGap g → IsGap (a ++ g)

theorem Comment.isComment (h : Comment a) : IsComment a := by
  cases h with
  | @line a h =>
      by_cases hline : '\n' ∈ a
      · obtain ⟨b, c, r, rfl, hb, hc⟩ := exists_first (p := (· = '\n')) ⟨_, hline, by simp⟩
        obtain rfl : c = '\n' := by simpa using hc
        have hb : '\n' ∉ b := fun hmem => by simpa using hb _ hmem
        -- the comment ends after its first newline
        have hfirst := closes_lineComment hb 0 .lineComment r rfl
        have hall := h 0 .lineComment [] rfl
        rw [List.append_nil, List.append_cons, hfirst] at hall
        obtain rfl : r = [] := by simpa using hall
        exact .line hb
      · -- a newline after the text would be read with it
        have hmore := closes_lineComment hline 0 .lineComment [] rfl
        rw [List.append_nil, h 0 .lineComment ['\n'] rfl] at hmore
        simp at hmore
  | @block a h =>
      obtain ⟨b, r, hs, hlength, hb⟩ := completesAll_of_skip (h 0 (.blockComment 0) [] rfl) (by simp)
      obtain ⟨rfl, -⟩ := List.append_inj hs (by omega)
      cases completesAll_singleton_iff.1 hb with
      | blockComment hinside => exact .block hinside

theorem Gap.isGap {g : List Char} (h : Gap g) : IsGap g := by
  induction h with
  | nil => exact .nil
  | blank h _ ih => exact .blank h ih
  | comment h _ ih => exact .comment h.isComment ih

/-- What the site has behind its head, which stops at an offset: blanks and comments and a template; or
nothing, if the head has at least two operations and the last is a call. -/
inductive RawSite.Ends (source tag : List Char) (site : RawSite) (stop : Nat) : Prop
  | template {t : RawTemplate} {tick : Nat} (has : site.template = some t) (le : stop ≤ tick)
      (gap : IsGap (slice source ⟨stop, tick⟩)) (backtick : source[tick]? = some '`')
      (read : readTemplate source tick = .ok t) (ends : t.span.stop = site.span.stop)
  | calls {n : Nat} (has : site.template = none) (ends : stop = site.span.stop) (two : 2 ≤ n)
      (ops : Ops source[stop]? 0 false (slice source ⟨site.span.start + tag.length, stop⟩) n true)

structure RawSite.WellFormed (source tag : List Char) (site : RawSite) : Prop where
  proper : Proper source.length site.span
  tagged : tag <+: source.drop site.span.start
  before : ∀ c ∈ (source.take site.span.start).getLast?, isNamePart c = false ∧ c ≠ '.'
  after : ∀ c ∈ source[site.span.start + tag.length]?, isNamePart c = false
  head : ∃ stop ≤ site.span.stop, site.head = String.ofList (slice source ⟨site.span.start, stop⟩) ∧
    site.Ends source tag stop

theorem exists_ends (h : readSite? source i tag.length = .ok (some site)) :
    ∃ stop ≤ site.span.stop, site.head = String.ofList (slice source ⟨site.span.start, stop⟩) ∧
      site.Ends source tag stop := by
  cases siteRead_of_readSite? h with
  | @calls n a r hs hops htwo _ =>
      have hnext : source[i + tag.length + a.length]? = r.head? := by rw [← drop_after hs, List.head?_drop]
      refine ⟨i + tag.length + a.length, Nat.le_refl _, rfl, .calls rfl rfl htwo ?_⟩
      rw [hnext, slice, hs, Nat.add_sub_cancel_left, List.take_left]
      exact hops
  | @template n e a g u template hs hops hg htemplate =>
      have hr := drop_after hs
      have htick : source[i + tag.length + a.length + g.length]? = some '`' := by
        rw [← List.head?_drop, drop_after hr]
        rfl
      have hlt := (List.getElem?_eq_some_iff.1 htick).1
      have hends := (readTemplate_bounds htemplate hlt).1
      refine ⟨i + tag.length + a.length, by simp only; omega, rfl,
        .template rfl (Nat.le_add_right _ _) ?_ htick htemplate rfl⟩
      rw [slice, hr, Nat.add_sub_cancel_left, List.take_left]
      exact hg.isGap

theorem wellFormed_of_scanAt (htag : tag ≠ []) (hi : i < source.length)
    (h : scanAt source tag i = .ok (some site, j)) :
    site.WellFormed source tag ∧ site.span.start = i ∧ site.span.stop = j := by
  cases stepAt_of_scanAt hi h with
  | site hstart hsite =>
      have hpos := List.length_pos_iff.2 htag
      have hfits := startsTag_length hstart
      rw [List.length_drop] at hfits
      obtain ⟨rfl, hlow, hhigh⟩ := readSite?_bounds hsite (by omega)
      simp only [startsTag, Bool.and_eq_true, Bool.not_eq_true', Option.any_eq_false,
        List.isPrefixOf_iff_prefix, List.drop_drop, List.head?_drop, Bool.or_eq_false_iff,
        decide_eq_false_iff_not] at hstart
      exact ⟨⟨⟨by omega, hhigh⟩, hstart.1.1, hstart.1.2, hstart.2, exists_ends hsite⟩, rfl, rfl⟩

/-- A scan that ends finds just the sites at the offsets it comes to. They are well formed and in order,
none begins before another ends, and none within a string, a comment or a template that is stepped over. -/
theorem findSites_wellFormed (htag : tag ≠ []) (h : findSites source tag = .ok sites) :
    (∀ site, site ∈ sites ↔ ∃ i j, Visits source tag i ∧ i < source.length ∧
      scanAt source tag i = .ok (some site, j)) ∧
    (∀ site ∈ sites, site.WellFormed source tag) ∧
    sites.Pairwise (fun a b => a.span.stop ≤ b.span.start) ∧
    ∀ site ∈ sites, ∀ i frame n, Visits source tag i → part? (source.drop i) = some (frame, n) →
      site.span.start < i ∨ i + n ≤ site.span.start := by
  have hmem (site : RawSite) : site ∈ sites ↔ ∃ i j, Visits source tag i ∧ i < source.length ∧
      scanAt source tag i = .ok (some site, j) := mem_sitesFrom_iff htag (Nat.zero_le _) h
  refine ⟨hmem, fun site hsite => ?_, (findSites_apart h htag).ordered, fun site hsite i frame n hi hpart => ?_⟩
  · obtain ⟨i, j, -, hlt, hat⟩ := (hmem site).1 hsite
    exact (wellFormed_of_scanAt htag hlt hat).1
  · obtain ⟨k, j, hk, hlt, hat⟩ := (hmem site).1 hsite
    obtain ⟨-, hstart, -⟩ := wellFormed_of_scanAt htag hlt hat
    obtain ⟨hi', hpart⟩ := scanAt_part tag hpart
    rw [hstart]
    obtain hki | rfl | hik := Nat.lt_trichotomy k i
    · exact .inl hki
    · simp [hat] at hpart
    · exact .inr (Visits.le_of_lt htag hi hk ⟨hi', none, hpart⟩ hik)

def crowdedSource : List Char :=
  "css.x css`a` // css`b`\n'css`c`' ns.css`d` css.e(1)`f$\x7bcss`g`\x7d` css .h() /* ` */ `i` css(j)(k);".toList

theorem crowdedSource_wellFormed : ∃ sites, findSites crowdedSource ['c', 's', 's'] = .ok sites ∧
    sites.map (fun site => (site.span, site.head)) =
      [(⟨6, 12⟩, "css"), (⟨42, 62⟩, "css.e(1)"), (⟨63, 83⟩, "css .h()"), (⟨84, 93⟩, "css(j)(k)")] ∧
    ∀ site ∈ sites, site.WellFormed crowdedSource ['c', 's', 's'] := by
  obtain ⟨sites, h, hsites⟩ : ∃ sites, findSites crowdedSource ['c', 's', 's'] = .ok sites ∧
      sites.map (fun site => (site.span, site.head)) =
        [(⟨6, 12⟩, "css"), (⟨42, 62⟩, "css.e(1)"), (⟨63, 83⟩, "css .h()"), (⟨84, 93⟩, "css(j)(k)")] :=
    ⟨_, rfl, by decide +kernel⟩
  exact ⟨sites, h, hsites, (findSites_wellFormed (by decide) h).2.1⟩

end CssExtract.Script
