import CssExtract.Proofs.CallText
import CssExtract.Proofs.Recoding
import CssExtract.Proofs.Splice
import CssExtract.Proofs.TemplatePieces

namespace CssExtract.Script

open Text

variable {source tag a b s s₂ t : List Char} {c : Char} {i pending : Nat} {j : Bool}
  {P : List Char → Prop} {previous : Option Char} {raws : List RawSite}

theorem sitesFrom_append (previous : Option Char) (i : Nat) :
    sitesFrom source tag i previous a.length (a ++ s) =
      sitesFrom source tag (i + a.length) (a.getLast?.or previous) 0 s := by
  induction a generalizing i previous with
  | nil => simp
  | cons c a ih =>
      rw [List.length_cons, List.cons_append, sitesFrom, ih, getLast?_cons_or]
      congr 1
      omega

theorem sitesFrom_cons_append (c : Char) (i : Nat) :
    sitesFrom source tag (i + 1) (some c) a.length (a ++ s) =
      sitesFrom source tag (i + (c :: a).length) (c :: a).getLast? 0 s := by
  have hlast : a.getLast?.or (some c) = (c :: a).getLast? := by
    rw [← getLast?_cons_or c a none, Option.or_none]
  rw [sitesFrom_append, hlast]
  congr 1
  simp
  omega

theorem sitesFrom_part (h : Part (c :: a)) :
    sitesFrom source tag i previous 0 (c :: (a ++ s)) =
      sitesFrom source tag (i + (c :: a).length) (c :: a).getLast? 0 s := by
  obtain ⟨width, frame, hopens, hskip⟩ := h.exists_opens (c := c) (s := a ++ s) (r := s) rfl i
  rw [sitesFrom, hopens]
  simp only [bind, Except.bind]
  rw [hskip, ← sitesFrom_cons_append]
  simp only [List.length_cons]
  rw [show i + (a.length + 1) - (i + 1) = a.length by omega]

theorem sitesFrom_endComment (h : EndComment (c :: s)) :
    sitesFrom source tag i previous 0 (c :: s) = .ok [] := by
  obtain ⟨hopens, hskip⟩ := h.exists_opens i
  have hrest : sitesFrom source tag (i + 1) (some c) s.length (s ++ []) = _ := sitesFrom_cons_append c i
  rw [List.append_nil, sitesFrom] at hrest
  rw [sitesFrom, hopens]
  simp only [bind, Except.bind]
  rw [hskip]
  simp only
  rw [show i + (s.length + 1) - (i + 1) = s.length by omega, hrest]

theorem sitesFrom_name (ha : ∀ c ∈ a, isAsciiNamePart c = true) (hprevious : joined previous = true) :
    sitesFrom source tag i previous 0 (a ++ s) =
      sitesFrom source tag i previous a.length (a ++ s) := by
  rw [sitesFrom_append]
  induction a generalizing i previous with
  | nil => simp
  | cons c a ih =>
      obtain ⟨hc, ha⟩ := List.forall_mem_cons.1 ha
      rw [List.cons_append, sitesFrom, opens?_name hc]
      simp only [startsTag_eq, hprevious, Bool.not_true, Bool.false_and, Bool.false_eq_true, if_false]
      rw [ih ha (joined_of_isAsciiNamePart hc), getLast?_cons_or, List.length_cons]
      congr 1
      omega

/-- Reading on after a tag is reading on after its first character. -/
theorem sitesFrom_tag (htag : IsName tag) (h : c :: s = tag ++ t) :
    sitesFrom source tag i (some c) (tag.length - 1) s = sitesFrom source tag i (some c) 0 s := by
  obtain ⟨d, u, rfl, hd, hu⟩ := htag
  obtain ⟨rfl, rfl⟩ := List.cons.inj h
  exact (sitesFrom_name hu (joined_of_isAsciiNamePart (isAsciiNamePart_of_isNameStart hd))).symm

theorem readSite?_of_siteless (h : Siteless 0 false (source.drop (i + tag.length))) :
    readSite? source i tag.length = .ok none := by
  obtain ⟨n, e, stop, hread, hno⟩ := h.readHead (i + tag.length)
  simp only [readSite?, bind, Except.bind, hread]
  simp only [Bool.and_eq_true, decide_eq_true_eq, hno, if_false]

theorem readSite?_of_ops {n : Nat} (h : source.drop i = tag ++ (b ++ s)) (hops : Ops s.head? 0 false b n true)
    (htwo : 2 ≤ n) (hstops : Stops s) :
    readSite? source i tag.length =
      .ok (some ⟨⟨i, i + (tag ++ b).length⟩, String.ofList (tag ++ b), none⟩) := by
  have hdrop : source.drop (i + tag.length) = b ++ s := by
    rw [← List.drop_drop, h, List.drop_left]
  simp only [readSite?, bind, Except.bind, hdrop, hops.readHead rfl]
  rw [hstops]
  have hslice : slice source ⟨i, i + (tag ++ b).length⟩ = tag ++ b := by
    rw [slice, Nat.add_sub_cancel_left, h, ← List.append_assoc, List.take_left]
  rw [List.length_append, ← Nat.add_assoc] at hslice ⊢
  simp [htwo, hslice]

theorem sitesFrom_site_tail {r : List Char} (htag : IsName tag) (h : c :: s = tag ++ a ++ r) (i : Nat) :
    sitesFrom source tag (i + 1) (some c) (i + (tag ++ a).length - (i + 1)) s =
      sitesFrom source tag (i + (tag ++ a).length) (tag ++ a).getLast? 0 r := by
  obtain ⟨d, u, rfl, -⟩ := htag
  obtain ⟨rfl, rfl⟩ := List.cons.inj h
  simp only [List.cons_append]
  rw [← sitesFrom_cons_append, List.length_cons]
  congr 1
  omega

theorem sitesFrom_site {r : List Char} {site : RawSite} (htag : IsName tag)
    (hstart : startsTag tag previous (tag ++ a ++ r) = true)
    (hsite : readSite? source i tag.length = .ok (some site))
    (hstop : site.span.stop = i + (tag ++ a).length)
    (hrest : sitesFrom source tag (i + (tag ++ a).length) (tag ++ a).getLast? 0 r = .ok raws) :
    sitesFrom source tag i previous 0 (tag ++ a ++ r) = .ok (site :: raws) := by
  obtain ⟨c, s, hs⟩ : ∃ c s, tag ++ a ++ r = c :: s := by
    obtain ⟨d, u, rfl, -⟩ := htag
    exact ⟨d, u ++ a ++ r, by simp⟩
  have hopens : opens? i c s.head? = none := by
    obtain ⟨d, u, rfl, hd, -⟩ := htag
    obtain ⟨rfl, -⟩ := List.cons.inj hs
    exact opens?_name (isAsciiNamePart_of_isNameStart hd) i _
  rw [hs] at hstart ⊢
  rw [sitesFrom, hopens]
  simp only [hstart, hsite, bind, Except.bind, if_true, hstop]
  rw [sitesFrom_site_tail htag hs.symm, hrest]

/-- A recoded text has no call sites but those that are recoded, each with the text it is written
with. -/
theorem Recoded.sitesFrom (htag : IsName tag) (h : Recoded tag P j s s₂) (hj : joined previous = j)
    (hsource : source.drop i = s₂) :
    ∃ raws, sitesFrom source tag i previous 0 s₂ = .ok raws ∧
      ∀ raw ∈ raws, raw.template = none ∧ P raw.head.toList := by
  have hnone : ∀ raw ∈ ([] : List RawSite), raw.template = none ∧ P raw.head.toList := by simp
  induction h generalizing i previous with
  | nil => exact ⟨[], rfl, hnone⟩
  | @comment j s h =>
      obtain ⟨b, rfl, -⟩ := id h
      exact ⟨[], sitesFrom_endComment h, hnone⟩
  | @part j a s s₂ ha h ih =>
      obtain ⟨c, a, rfl⟩ := List.exists_cons_of_ne_nil ha.ne_nil
      rw [List.cons_append, sitesFrom_part ha]
      exact ih rfl (by rw [← List.drop_drop, hsource, List.drop_left])
  | @char j c s s₂ opens site h ih =>
      have opens' : opens? i c s₂.head? = none := by
        rw [h.head?_eq htag]
        exact opens?_eq_none_shift opens i
      have hnext : source.drop (i + 1) = s₂ := by rw [← List.drop_drop, hsource]; rfl
      obtain ⟨raws, hraws, hall⟩ := ih (show joined (some c) = _ from rfl) hnext
      refine ⟨raws, ?_, hall⟩
      rw [Script.sitesFrom, opens']
      simp only
      split
      · rename_i hstart
        simp only [startsTag_eq, hj, Bool.and_eq_true, Bool.not_eq_true'] at hstart
        obtain ⟨rfl, hstart⟩ := hstart
        have hsiteless := h.siteless_of_hasTag htag (site rfl) hstart
        obtain ⟨t, ht, -⟩ := hasTag_eq_true_iff.1 hstart
        rw [readSite?_of_siteless (by rwa [← List.drop_drop, hsource])]
        simp only [bind, Except.bind, htag.isEmpty, Bool.false_eq_true, if_false]
        rw [sitesFrom_tag htag ht, hraws]
      · exact hraws
  | @site a b s s₂ n old neutral stops new two next next' last holds h ih =>
      have hstops := h.stops htag stops
      have hops : Ops s₂.head? 0 false b n true := by rwa [h.head?_eq htag]
      have hb : b ≠ [] := by
        rintro rfl
        have := new.eq_of_nil
        omega
      have hread : readSite? source i tag.length =
          .ok (some ⟨⟨i, i + (tag ++ b).length⟩, String.ofList (tag ++ b), none⟩) :=
        readSite?_of_ops hsource hops two hstops
      have hnext : source.drop (i + (tag ++ b).length) = s₂ := by
        rw [← List.drop_drop, hsource, ← List.append_assoc, List.drop_left]
      obtain ⟨raws, hraws, hall⟩ := ih last hnext
      refine ⟨⟨⟨i, i + (tag ++ b).length⟩, String.ofList (tag ++ b), none⟩ :: raws, ?_,
        List.forall_mem_cons.2 ⟨⟨rfl, by simpa using holds⟩, hall⟩⟩
      have hstart : startsTag tag previous (tag ++ (b ++ s₂)) = true := by
        rw [startsTag_eq, hj, Bool.not_false, Bool.true_and]
        refine hasTag_eq_true_iff.2 ⟨b ++ s₂, rfl, ?_⟩
        obtain ⟨d, b, rfl⟩ := List.exists_cons_of_ne_nil hb
        simpa using next'
      rw [← List.append_assoc] at hstart ⊢
      exact sitesFrom_site htag hstart hread rfl hraws

theorem exists_template {template : RawTemplate} (h : readTemplate source i = .ok template)
    (hsource : source.drop i = c :: s) :
    ∃ a r, s = a ++ r ∧ template.span.stop = i + (c :: a).length ∧ Closes .template a := by
  obtain ⟨p, hp, rfl⟩ := readTemplate_eq_ok_iff.1 h
  have hdrop : source.drop (i + 1) = s := drop_after (a := [c]) hsource
  rw [hdrop] at hp
  have hlow := hp.lt
  have hhigh := le_add_length_of_skip hp.skip
  obtain ⟨a, r, rfl, hstop⟩ : ∃ a r, s = a ++ r ∧ p.stop = i + 1 + a.length :=
    ⟨s.take (p.stop - (i + 1)), s.drop (p.stop - (i + 1)), by simp, by simp; omega⟩
  exact ⟨a, r, rfl, by simp [hstop]; omega, closes_of_skip (hstop ▸ hp.skip) (.inr (by simp))⟩

end CssExtract.Script

namespace CssExtract.Script

open Text

variable {source tag a b s t : List Char} {i n : Nat} {raw : RawSite}

/-- What stands at `i`, behind the tag at `start`, where a call site is read: operations with a template
after them, at least two that end in a call, or neither. -/
inductive SiteRead (source : List Char) (start i : Nat) : Option RawSite → Prop
  | template {n : Nat} {e : Bool} {a g u : List Char} {template : RawTemplate}
      (split : source.drop i = a ++ (g ++ '`' :: u)) (ops : Ops (g ++ '`' :: u).head? 0 false a n e)
      (gap : Gap g) (read : readTemplate source (i + a.length + g.length) = .ok template) :
      SiteRead source start i (some ⟨⟨start, template.span.stop⟩,
        String.ofList (slice source ⟨start, i + a.length⟩), some template⟩)
  | calls {n : Nat} {a r : List Char} (split : source.drop i = a ++ r) (ops : Ops r.head? 0 false a n true)
      (two : 2 ≤ n) (stops : Stops r) :
      SiteRead source start i (some ⟨⟨start, i + a.length⟩,
        String.ofList (slice source ⟨start, i + a.length⟩), none⟩)
  | none (siteless : Siteless 0 false (source.drop i)) : SiteRead source start i none

theorem siteRead_of_readSite? {found : Option RawSite} (h : readSite? source i n = .ok found) :
    SiteRead source i (i + n) found := by
  rw [readSite?] at h
  obtain ⟨⟨⟨ops, endsInCall, stop⟩, tick⟩, hhead, hfound⟩ := bind_eq_ok_iff.1 h
  obtain ⟨a, r, backtick, hs, hops, rfl, rfl, hfollows⟩ := exists_ops hhead
  obtain ⟨rfl, hstops⟩ | ⟨g, u, rfl, hg, rfl⟩ := hfollows
  · obtain rfl := Except.ok.inj hfound
    split_ifs with hsite
    · rw [Bool.and_eq_true, decide_eq_true_eq] at hsite
      obtain ⟨htwo, rfl⟩ := hsite
      exact .calls hs hops htwo hstops
    · exact .none ⟨a, r, _, _, hs, hops, hstops, by simpa using hsite⟩
  · obtain ⟨template, hread, hsite⟩ := bind_eq_ok_iff.1 hfound
    obtain rfl := Except.ok.inj hsite
    exact .template hs hops hg hread

theorem siteless_of_readSite? (h : readSite? source i tag.length = .ok none) :
    Siteless 0 false (source.drop (i + tag.length)) := by
  cases siteRead_of_readSite? h with
  | none hsiteless => exact hsiteless

inductive SiteText (tag : List Char) (raw : RawSite) (a r : List Char) : Prop
  | template {b t : List Char} (has : raw.template.isSome) (last : a.getLast? = some '`')
      (head : raw.head = String.ofList (tag ++ b)) (split : a = b ++ t)
  | calls {n : Nat} (has : raw.template = none) (ops : Ops r.head? 0 false a n true) (two : 2 ≤ n)
      (stops : Stops r) (head : raw.head = String.ofList (tag ++ a))

theorem exists_siteText (h : readSite? source i tag.length = .ok (some raw))
    (hsource : source.drop i = tag ++ t) :
    ∃ a r, t = a ++ r ∧ raw.span = ⟨i, i + (tag ++ a).length⟩ ∧ Neutral a ∧ SiteText tag raw a r := by
  have hdrop : source.drop (i + tag.length) = t := by rw [← List.drop_drop, hsource, List.drop_left]
  have hhead {a u : List Char} (ht : t = a ++ u) : slice source ⟨i, i + tag.length + a.length⟩ = tag ++ a := by
    rw [slice, hsource, ht, Nat.add_assoc, Nat.add_sub_cancel_left, ← List.length_append,
      ← List.append_assoc, List.take_left]
  cases siteRead_of_readSite? h with
  | @calls n a r hs hops htwo hstops =>
      rw [hdrop] at hs
      exact ⟨a, r, hs, by rw [List.length_append, Nat.add_assoc], hops.neutral,
        .calls rfl hops htwo hstops (congrArg String.ofList (hhead hs))⟩
  | @template n e a g u template hs hops hg htemplate =>
      rw [hdrop] at hs
      have htick : source.drop (i + tag.length + a.length + g.length) = '`' :: u := by
        rw [← List.drop_drop, ← List.drop_drop, hdrop, hs, List.drop_left, List.drop_left]
      obtain ⟨x, r, rfl, hstop, hcloses⟩ := exists_template htemplate htick
      refine ⟨a ++ (g ++ '`' :: x), r, by simp [hs], ?_, ?_,
        .template rfl ?_ (congrArg String.ofList (hhead hs)) rfl⟩
      · rw [hstop]
        simp [Nat.add_assoc]
      · exact hops.neutral.append (hg.neutral.append (Part.template hcloses).neutral)
      · have hclosed : skip 0 ([] ++ [.template]) (x ++ []) = .ok (0 + x.length) :=
          hcloses 0 .template [] rfl
        have hlast := getLast?_of_skip hclosed (.inl (by simp))
        simp only [List.append_nil, Nat.zero_add, Nat.sub_zero, List.take_length, Frame.closing] at hlast
        simp [List.getLast?_append, List.getLast?_cons, hlast]

/-- How the scan for call sites goes on at an offset, and which call sites are found from there on. -/
inductive ScanStep (source tag : List Char) (i : Nat) (previous : Option Char) :
    List Char → List RawSite → Prop
  | part {a r : List Char} {raws : List RawSite} (part : Part a)
      (rest : sitesFrom source tag (i + a.length) a.getLast? 0 r = .ok raws) :
      ScanStep source tag i previous (a ++ r) raws
  | comment {s : List Char} (comment : EndComment s) : ScanStep source tag i previous s []
  | char {c : Char} {s : List Char} {raws : List RawSite} (opens : opens? 0 c s.head? = none)
      (site : joined previous = false → hasTag tag (c :: s) = true →
        Siteless 0 false ((c :: s).drop tag.length))
      (rest : sitesFrom source tag (i + 1) (some c) 0 s = .ok raws) :
      ScanStep source tag i previous (c :: s) raws
  | site {a r : List Char} {raw : RawSite} {raws : List RawSite} (free : joined previous = false)
      (next : (a ++ r).head?.any isNamePart = false) (old : ¬ Siteless 0 false (a ++ r))
      (span : raw.span = ⟨i, i + (tag ++ a).length⟩) (neutral : Neutral a) (text : SiteText tag raw a r)
      (rest : sitesFrom source tag (i + (tag ++ a).length) (tag ++ a).getLast? 0 r = .ok raws) :
      ScanStep source tag i previous (tag ++ (a ++ r)) (raw :: raws)

theorem scanStep_of_sitesFrom {c : Char} {previous : Option Char} {raws : List RawSite}
    (htag : IsName tag) (h : sitesFrom source tag i previous 0 (c :: s) = .ok raws)
    (hsource : source.drop i = c :: s) : ScanStep source tag i previous (c :: s) raws := by
  have hstep := h
  rw [sitesFrom] at hstep
  cases hopens : opens? i c s.head? with
  | some found =>
      obtain ⟨width, frame⟩ := found
      rw [hopens] at hstep
      obtain ⟨stop, hskip, -⟩ := bind_eq_ok_iff.1 hstep
      obtain ⟨a, r, hs, -, ha | ⟨rfl, ha⟩⟩ := part_cases hopens hskip
      · rw [hs] at h ⊢
        obtain ⟨d, a, rfl⟩ := List.exists_cons_of_ne_nil ha.ne_nil
        rw [List.cons_append, sitesFrom_part ha] at h
        exact .part ha h
      · rw [List.append_nil] at hs
        rw [← hs] at ha
        rw [sitesFrom_endComment ha] at h
        obtain rfl := Except.ok.inj h
        exact .comment ha
  | none =>
      simp only [hopens] at hstep
      have hnone := opens?_eq_none_shift hopens 0
      by_cases hstart : startsTag tag previous (c :: s) = true
      · rw [if_pos hstart] at hstep
        simp only [startsTag_eq, Bool.and_eq_true, Bool.not_eq_true'] at hstart
        obtain ⟨hfree, hstart⟩ := hstart
        obtain ⟨t, ht, hnext⟩ := hasTag_eq_true_iff.1 hstart
        have hafter : source.drop (i + tag.length) = t := by
          rw [← List.drop_drop, hsource, ht, List.drop_left]
        obtain ⟨found, hsite, hfound⟩ := bind_eq_ok_iff.1 hstep
        cases found with
        | none =>
            simp only [htag.isEmpty, Bool.false_eq_true, if_false] at hfound
            rw [sitesFrom_tag htag ht] at hfound
            refine .char hnone (fun _ _ => ?_) hfound
            rw [ht, List.drop_left, ← hafter]
            exact siteless_of_readSite? hsite
        | some raw =>
            obtain ⟨rest, hrest, hraws⟩ := bind_eq_ok_iff.1 hfound
            obtain rfl := Except.ok.inj hraws
            obtain ⟨a, r, rfl, hspan, hneutral, htext⟩ := exists_siteText hsite (hsource.trans ht)
            have htext' : c :: s = tag ++ a ++ r := by rw [ht, List.append_assoc]
            rw [hspan, sitesFrom_site_tail htag htext'] at hrest
            have hold : ¬ Siteless 0 false (a ++ r) := fun hno => by
              rw [← hafter] at hno
              simp [readSite?_of_siteless hno] at hsite
            rw [ht]
            exact .site hfree hnext hold hspan hneutral htext hrest
      · rw [if_neg hstart] at hstep
        refine .char hnone (fun hfree htag => absurd ?_ hstart) hstep
        rw [startsTag_eq, hfree, htag]
        rfl

theorem SiteText.exists_head {r : List Char} (h : SiteText tag raw a r)
    (hnext : (a ++ r).head?.any isNamePart = false) :
    ∃ b, raw.head.toList = tag ++ b ∧ Ends b.head? := by
  have hends {b u : List Char} (hu : a ++ r = b ++ u) : Ends b.head? := by
    cases b with
    | nil => rfl
    | cons d b =>
        rw [hu] at hnext
        exact ends_of_not_isNamePart (by simpa using hnext)
  cases h with
  | @template b t _ _ head split => exact ⟨b, by simp [head], hends (u := t ++ r) (by simp [split])⟩
  | calls _ _ _ _ head => exact ⟨a, by simp [head], hends rfl⟩

theorem exists_head_of_sitesFrom {previous : Option Char} {raws : List RawSite} (htag : IsName tag)
    (h : sitesFrom source tag i previous 0 s = .ok raws) (hsource : source.drop i = s)
    (hraw : raw ∈ raws) : ∃ b, raw.head.toList = tag ++ b ∧ Ends b.head? := by
  induction hn : s.length using Nat.strongRecOn generalizing s i previous raws with
  | _ n ih =>
    cases s with
    | nil =>
        obtain rfl : raws = [] := by simpa [sitesFrom] using h.symm
        simp at hraw
    | cons c s =>
        have hstep := scanStep_of_sitesFrom htag h hsource
        generalize c :: s = t at hsource hn hstep
        cases hstep with
        | @part a r _ part rest =>
            have := List.length_pos_iff.2 part.ne_nil
            exact ih r.length (by simp at hn; omega) rest
              (by rw [← List.drop_drop, hsource, List.drop_left]) hraw rfl
        | comment => simp at hraw
        | @char c s _ opens site rest =>
            exact ih s.length (by simp [← hn]) rest (by rw [← List.drop_drop, hsource]; rfl) hraw rfl
        | @site a r raw' _ free next old span neutral text rest =>
            rcases List.mem_cons.1 hraw with rfl | hraw
            · exact text.exists_head next
            · refine ih r.length ?_ rest ?_ hraw rfl
              · obtain ⟨d, u, rfl, -⟩ := htag
                simp at hn
                omega
              · rw [← List.drop_drop, hsource, ← List.append_assoc, List.drop_left]

end CssExtract.Script

namespace CssExtract.Styled

open Script Text

variable {source tag s result : List Char} {i : Nat} {previous : Option Char} {P : List Char → Prop}

/-- A call site and the text in its place, if there is one: without a template it is kept, and with
one it gives way to two calls, if nothing follows that belongs to a head. -/
inductive Rewrite (source tag : List Char) (P : List Char → Prop) : RawSite → Option (List Char) → Prop
  | kept {raw : RawSite} (template : raw.template = none) (holds : P raw.head.toList) :
      Rewrite source tag P raw none
  | given {raw : RawSite} {a b : List Char} (template : raw.template.isSome)
      (stops : Stops (source.drop raw.span.stop)) (first : Neutral a) (second : Neutral b)
      (holds : P (tag ++ (parenthesised a ++ parenthesised b))) :
      Rewrite source tag P raw (some (tag ++ (parenthesised a ++ parenthesised b)))

/-- Call sites from an offset on with their texts, and what the text there is put together to. -/
structure Underway (source tag : List Char) (P : List Char → Prop) (i : Nat) (s : List Char)
    (items : List (RawSite × Option (List Char))) (result : List Char) : Prop where
  drop : source.drop i = s
  bound : i + s.length = source.length
  rewrites : ∀ item ∈ items, Rewrite source tag P item.1 item.2
  spliced : Spliced i s (items.filterMap fun item => item.2.map (item.1.span, ·)) result

namespace Underway

variable {c : Char} {a r : List Char} {items : List (RawSite × Option (List Char))} {raw : RawSite}
  {text? : Option (List Char)}

theorem drop_append (h : Underway source tag P i (a ++ r) items result) :
    source.drop (i + a.length) = r := by
  rw [← List.drop_drop, h.drop, List.drop_left]

theorem after (h : Underway source tag P i (a ++ r) items result)
    (hsites : sitesFrom source tag (i + a.length) previous 0 r = .ok (items.map Prod.fst)) :
    ∃ r₂, result = a ++ r₂ ∧ Underway source tag P (i + a.length) r items r₂ := by
  have hbound := h.bound
  rw [List.length_append, ← Nat.add_assoc] at hbound
  have hordered := sitesFrom_ordered hsites hbound
  obtain ⟨r₂, rfl, hspliced⟩ := h.spliced.exists_append fun edit hedit => by
    obtain ⟨item, hitem, hmap⟩ := List.mem_filterMap.1 hedit
    obtain ⟨text, -, rfl⟩ := Option.map_eq_some_iff.1 hmap
    exact (hordered.within item.1 (List.mem_map_of_mem hitem)).1
  exact ⟨r₂, rfl, h.drop_append, hbound, h.rewrites, hspliced⟩

theorem eq_of_no_items (h : Underway source tag P i s [] result) : result = s :=
  h.spliced.eq_of_no_edits

theorem site (h : Underway source tag P i (tag ++ (a ++ r)) ((raw, text?) :: items) result)
    (hspan : raw.span = ⟨i, i + (tag ++ a).length⟩) (htext : SiteText tag raw a r)
    (hnext : (a ++ r).head?.any isNamePart = false)
    (hsites : sitesFrom source tag (i + (tag ++ a).length) previous 0 r = .ok (items.map Prod.fst)) :
    ∃ b r₂ n, result = tag ++ (b ++ r₂) ∧ Stops r ∧ Ops r.head? 0 false b n true ∧ 2 ≤ n ∧
      b.head?.any isNamePart = false ∧ joined (tag ++ b).getLast? = joined (tag ++ a).getLast? ∧
      P (tag ++ b) ∧ Underway source tag P (i + (tag ++ a).length) r items r₂ := by
  rw [← List.append_assoc] at h
  obtain ⟨hrewrite, hrewrites⟩ := List.forall_mem_cons.1 h.rewrites
  simp only at hrewrite
  cases hrewrite with
  | kept template holds =>
      cases htext with
      | template has => simp [template] at has
      | @calls n has ops two stops head =>
          obtain ⟨r₂, rfl, hrest⟩ := after ⟨h.drop, h.bound, hrewrites, h.spliced⟩ hsites
          rw [head, String.toList_ofList] at holds
          have ha : a ≠ [] := by
            rintro rfl
            have := ops.eq_of_nil
            omega
          obtain ⟨d, a, rfl⟩ := List.exists_cons_of_ne_nil ha
          exact ⟨d :: a, r₂, n, by simp, stops, ops, two, hnext, rfl, holds, hrest⟩
  | @given x y template stops first second holds =>
      cases htext with
      | calls has => simp [has] at template
      | template has last =>
          have hspliced := h.spliced
          simp only [List.filterMap_cons, Option.map_some, hspan] at hspliced
          obtain ⟨r₂, rfl, hrest⟩ := hspliced.exists_edit
          rw [hspan, h.drop_append] at stops
          have hbound := h.bound
          rw [List.length_append, ← Nat.add_assoc] at hbound
          refine ⟨parenthesised x ++ parenthesised y, r₂, 2, by simp, stops, ops_calls first second,
            Nat.le_refl 2, by simp [parenthesised]; decide, ?_, holds, h.drop_append, hbound, hrewrites,
            hrest⟩
          simp [parenthesised, List.getLast?_append, List.getLast?_cons, last]
          decide

end Underway

theorem Underway.recoded (htag : IsName tag) {items : List (RawSite × Option (List Char))}
    (h : Underway source tag P i s items result)
    (hsites : sitesFrom source tag i previous 0 s = .ok (items.map Prod.fst)) :
    Recoded tag P (joined previous) s result := by
  induction hn : s.length using Nat.strongRecOn generalizing s i previous items result with
  | _ n ih =>
    cases s with
    | nil =>
        obtain rfl : items = [] := by simpa [sitesFrom] using hsites.symm
        rw [h.eq_of_no_items]
        exact .nil _
    | cons c s =>
        have hstep := scanStep_of_sitesFrom htag hsites h.drop
        generalize c :: s = t at h hn hstep
        generalize hraws : items.map Prod.fst = raws at hstep
        cases hstep with
        | @part a r _ part rest =>
            subst hraws
            have := List.length_pos_iff.2 part.ne_nil
            obtain ⟨r₂, rfl, hrest⟩ := h.after rest
            exact .part part (ih r.length (by simp at hn; omega) hrest rest rfl)
        | comment comment =>
            obtain rfl : items = [] := by simpa using hraws
            rw [h.eq_of_no_items]
            exact .comment comment
        | @char c s _ opens site rest =>
            subst hraws
            obtain ⟨r₂, rfl, hrest⟩ := h.after (a := [c]) rest
            exact .char opens site (ih s.length (by simp [← hn]) hrest rest rfl)
        | @site a r raw _ free next old span neutral text rest =>
            obtain ⟨⟨_, text?⟩, items, rfl, rfl, rfl⟩ := List.map_eq_cons_iff.1 hraws
            obtain ⟨b, r₂, m, rfl, hstops, hops, htwo, hnext, hlast, hholds, hrest⟩ :=
              h.site span text next rest
            rw [free]
            refine .site old neutral hstops hops htwo next hnext hlast hholds ?_
            refine ih r.length ?_ hrest rest rfl
            obtain ⟨d, u, rfl, -⟩ := htag
            simp at hn
            omega

end CssExtract.Styled
