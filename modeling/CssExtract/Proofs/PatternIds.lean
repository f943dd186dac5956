import CssExtract.Proofs.FailedBuild
import CssExtract.Proofs.Patterns

namespace CssExtract.Styled

open Eval Script

variable {c : VariableContext} {l : List Piece} {text : String} {v : Variables}

theorem Variables.run_placeholder (c : VariableContext) (name : String) (v : Variables) :
    (placeholder c name).run v = (String.ofList ((Piece.placeholder name).text c v.next),
      ⟨v.next + indexCount [.placeholder name], v.ids⟩) := by
  by_cases hindex : name = "index"
  · subst hindex
    simp only [placeholder, if_true, Piece.text, String.ofList_toList]
    rfl
  · have hcount : indexCount [.placeholder name] = 0 := by
      simp [indexCount, hindex]
    simp only [placeholder, if_neg hindex, Piece.text, hcount, String.ofList_toList]
    rfl

theorem Variables.run_fill (c : VariableContext) (l : List Piece) (v : Variables) :
    (fill (placeholder c) l).run v =
      (String.ofList (written c v.next l), ⟨v.next + indexCount l, v.ids⟩) := by
  induction l generalizing v with
  | nil => rfl
  | cons x l ih =>
      cases x with
      | literal x =>
          have hcount : indexCount (.literal x :: l) = indexCount l := by simp [indexCount]
          rw [fill, run_bind_of_run (ih v), hcount, written, String.ofList_append,
            String.singleton_eq_ofList]
          rfl
      | placeholder name =>
          rw [fill, run_bind_of_run (run_placeholder c name v), run_bind_of_run (ih _), written,
            String.ofList_append, indexCount_cons (.placeholder name) l, ← Nat.add_assoc]
          rfl

theorem Variables.run_idFor_pattern (hids : v.ids = []) (hwritten : written c v.next (pieces text) ≠ []) :
    (idFor (.pattern text) c).run v =
      (String.ofList (cleaned (written c v.next (pieces text))),
        ⟨v.next + indexCount (pieces text), []⟩) := by
  have hcustom : (customId (.pattern text) c).run v =
      (some (String.ofList (written c v.next (pieces text))),
        ⟨v.next + indexCount (pieces text), v.ids⟩) := by
    simp only [customId]
    rw [run_bind_of_run (run_fill c (pieces text) v)]
    rfl
  have hgiven : (String.ofList (written c v.next (pieces text))).isEmpty = false := by
    rw [String.isEmpty_eq_false_iff]
    exact fun h => hwritten (by simpa using congrArg String.toList h)
  simp only [idFor]
  rw [run_get_bind, hids, List.lookup_nil]
  simp only
  rw [run_bind_of_run hcustom, Option.filter_some, hgiven, hids, ← cssIdentifier_ofList]
  rfl

variable {values : List (Nat × Value)} {css source unit name : String} {node : Node} {n : Nat}
  {p p' q : Processor} {passages : List Passage} {cache : ValueCache} {new : List Interpolation}
  {i : Interpolation}

namespace Processor

/-- A processor that goes on with the ids that a pattern gives to a component. -/
structure Ready (p₀ p : Processor) (text : String) : Prop where
  naming : p.options.variableNaming = .pattern text
  ids : p.issued.ids = []
  context : p.context = p₀.context

theorem variableId_pattern (hready : Ready p' p text) (hname : name ∈ foundNames)
    (hmem : .placeholder name ∈ pieces text) (source unit css : String) :
    p.variableId source unit css =
      (String.ofList (cleaned (written (p.context source unit css) p.issued.next (pieces text))),
        { p with issued := ⟨p.issued.next + indexCount (pieces text), []⟩ }) := by
  rw [variableId, onVariables, hready.naming,
    Variables.run_idFor_pattern hready.ids (written_ne_nil hname hmem _)]

theorem Ready.perform (hready : Ready p' p text) (hname : name ∈ foundNames)
    (hmem : .placeholder name ∈ pieces text) (request : Request) :
    Ready p' (p.perform ⟨.pattern text, request⟩).2 text := by
  have hset : Ready p' { p with options := { p.options with variableNaming := .pattern text } } text :=
    ⟨rfl, hready.ids, hready.context⟩
  cases request with
  | index => exact ⟨rfl, hready.ids, hready.context⟩
  | id source unit css =>
      have hid := variableId_pattern hset hname hmem source unit css
      simp only [Processor.perform, hid]
      exact ⟨rfl, rfl, hready.context⟩
  | interpolation node css source unit =>
      have hid := variableId_pattern hset hname hmem source unit css
      simp only [Processor.perform, addInterpolation, hid]
      exact ⟨rfl, rfl, hready.context⟩

theorem Ready.performAll (hready : Ready p' p text) (hname : name ∈ foundNames)
    (hmem : .placeholder name ∈ pieces text) (requests : List Request) :
    Ready p' (p.performAll (requests.map (Call.mk (.pattern text)))).2 text := by
  induction requests generalizing p with
  | nil => exact hready
  | cons request requests ih => exact ih (hready.perform hname hmem request)

theorem fresh_of_create {t : Host} {s : SiteContext} {params : List Param} {warnings : List Warning}
    (hcreate : create t s params = (.ok p, warnings)) : p.Fresh ∧ p.options = s.options := by
  obtain ⟨node, operation, template, found, -, -, rfl⟩ := create_eq_ok (congrArg Prod.fst hcreate)
  exact ⟨wrapping_fresh s node template found, rfl⟩

theorem cssText_performAll (calls : List Call) : (p.performAll calls).2.cssText = p.cssText := by
  induction calls generalizing p with
  | nil => rfl
  | cons call calls ih =>
      obtain ⟨naming, request⟩ := call
      apply ih.trans
      cases request <;> rfl

end Processor

structure Interpolation.Named (p : Processor) (l : List Piece) (n : Nat) (i : Interpolation) : Prop where
  id : ∃ css, i.id = String.ofList (cleaned (written (p.context i.source i.unit css) n l))
  unit : Undigited i.unit

/-- Ids by a pattern, each with the indices that follow those of the one before. -/
inductive Numbered (p : Processor) (l : List Piece) : Nat → List Interpolation → Prop
  | nil {n : Nat} : Numbered p l n []
  | cons {n : Nat} {i : Interpolation} {rest : List Interpolation} (hnamed : i.Named p l n)
      (hrest : Numbered p l (n + indexCount l) rest) : Numbered p l n (i :: rest)

theorem undigited_of_mem_units : ∀ unit ∈ units, Undigited unit := by
  have hall : units.all (fun unit => unit.toList.all (!·.isDigit)) = true := by decide
  simpa [Undigited] using hall

theorem UnitCut.undigited {rest : String} (h : UnitCut text unit rest) : Undigited unit := by
  cases h with
  | percent => simp [Undigited]
  | word htext hword hunit => exact undigited_of_mem_units unit hunit
  | absent => simp [Undigited]

theorem RendersAll.numbered (hready : p'.Ready p text) (hname : name ∈ foundNames)
    (hmem : .placeholder name ∈ pieces text) (h : RendersAll values css p passages q) :
    Numbered p' (pieces text) p.issued.next (records passages) := by
  induction h with
  | nil => exact .nil
  | @cons css p q r x passages hone hrest ih =>
      rw [records_cons]
      cases hone with
      | fixed => exact ih hready
      | @varies slot source unit rest id q hvaries hcode hcut hid =>
          simp only [Processor.addInterpolation, Processor.variableId_pattern hready hname hmem] at hid
          obtain ⟨rfl, rfl⟩ := Prod.mk.inj hid
          have hnext : Numbered p' (pieces text) (p.issued.next + indexCount (pieces text)) (records passages) :=
            ih ⟨hready.naming, rfl, hready.context⟩
          exact .cons ⟨⟨css, by rw [hready.context]⟩, hcut.undigited⟩ hnext

theorem Numbered.exists_named {l : List Piece} (h : Numbered p l n new) (hi : i ∈ new) :
    ∃ m, n ≤ m ∧ i.Named p l m := by
  induction h with
  | nil => cases hi
  | cons hnamed hrest ih =>
      rcases List.mem_cons.1 hi with rfl | hi
      · exact ⟨_, Nat.le_refl _, hnamed⟩
      · obtain ⟨m, hle, hnamed⟩ := ih hi
        exact ⟨m, by omega, hnamed⟩

theorem Findable.shown_eq_of_id {l : List Piece} {shown : String → String} {j : Interpolation} {m : Nat}
    (h : Findable p name shown l) (hname : name ∈ foundNames) (hi : i.Named p l m) (hj : j.Named p l n)
    (hid : i.id = j.id) : ∃ css css' k,
      shown (String.ofList ((Piece.placeholder name).text (p.context i.source i.unit css) (m + k))) =
        shown (String.ofList ((Piece.placeholder name).text (p.context j.source j.unit css') (n + k))) := by
  obtain ⟨⟨css, hicss⟩, hiunit⟩ := hi
  obtain ⟨⟨css', hjcss⟩, hjunit⟩ := hj
  obtain ⟨k, hk⟩ := h.shown_eq hname hiunit hjunit
    (String.ofList_injective (hicss.symm.trans (hid.trans hjcss)))
  exact ⟨css, css', k, hk⟩

theorem Numbered.nodup_ids {l : List Piece} (h : Numbered p l n new) (hfind : Findable p "index" id l) :
    (new.map (·.id)).Nodup := by
  have hpos := indexCount_pos hfind.mem
  induction h with
  | nil => exact .nil
  | @cons n i rest hnamed hrest ih =>
      rw [List.map_cons, List.nodup_cons]
      refine ⟨?_, ih⟩
      intro hmem
      obtain ⟨j, hj, hid⟩ := List.mem_map.1 hmem
      obtain ⟨m, hle, hnamed'⟩ := hrest.exists_named hj
      obtain ⟨css, css', k, hk⟩ := hfind.shown_eq_of_id (by decide) hnamed hnamed' hid.symm
      have htext (c : VariableContext) (n : Nat) :
          String.ofList ((Piece.placeholder "index").text c n) = toString n := String.ofList_toList
      rw [htext, htext] at hk
      have := Nat.repr_injective hk
      omega

/-- The digests of texts in a template, as far as an identifier shows them, are told apart. -/
def DigestsApart (shown : String → String) (new : List Interpolation) : Prop :=
  ∀ i ∈ new, ∀ j ∈ new, shown (slugify (i.source ++ i.unit)) = shown (slugify (j.source ++ j.unit)) →
    i.source ++ i.unit = j.source ++ j.unit

theorem Numbered.source_unit_eq {l : List Piece} {shown : String → String} {j : Interpolation}
    (h : Numbered p l n new) (hfind : Findable p "valueSlug" shown l) (hdigests : DigestsApart shown new)
    (hi : i ∈ new) (hj : j ∈ new) (hid : i.id = j.id) : i.source ++ i.unit = j.source ++ j.unit := by
  obtain ⟨m, -, hnamed⟩ := h.exists_named hi
  obtain ⟨m', -, hnamed'⟩ := h.exists_named hj
  obtain ⟨css, css', k, hk⟩ := hfind.shown_eq_of_id (by decide) hnamed hnamed' hid
  have htext (i : Interpolation) (css : String) (n : Nat) :
      String.ofList ((Piece.placeholder "valueSlug").text (p.context i.source i.unit css) n) =
        slugify (i.source ++ i.unit) := String.ofList_toList
  rw [htext, htext] at hk
  exact hdigests i hi j hj hk

theorem exists_setting_append (old : List Interpolation) (hi : i ∈ new) :
    ∃ j ∈ new, j.id = i.id ∧ (settings (old ++ new)).get? i.id = some j.setting := by
  obtain ⟨j, hj, hid, hget⟩ := exists_setting hi
  refine ⟨j, hj, hid, ?_⟩
  rw [get?_settings] at hget ⊢
  obtain ⟨last, hlast, hsetting⟩ := Option.map_eq_some_iff.1 hget
  rw [List.filter_append, List.getLast?_append, hlast, Option.some_or, Option.map_some, hsetting]

namespace Processor

theorem exists_renders_build {result : Except Failure Rules} (hnew : p.cssText = none)
    (hbuild : p.build cache values = (result, q)) : ∃ passages slots,
      p.template.holes.zipIdx = passages.map Passage.slot ++ slots ∧
      (∀ rules, result = .ok rules → slots = []) ∧
      ∃ r, RendersAll values p.template.first p passages r ∧ r.interpolations = q.interpolations := by
  rw [build_of_new hnew] at hbuild
  split at hbuild
  case h_1 failure r hholes =>
    obtain ⟨rfl, rfl⟩ := Prod.mk.inj hbuild
    obtain ⟨passages, slot, after, hslots, hrendered, -⟩ := exists_rendersAll_of_error hholes
    exact ⟨passages, slot :: after, hslots, by simp, r, hrendered, rfl⟩
  case h_2 css r hholes =>
    obtain ⟨rfl, rfl⟩ := Prod.mk.inj hbuild
    obtain ⟨passages, hslots, rfl, hrendered⟩ := exists_rendersAll hholes
    exact ⟨passages, [], by simpa using hslots.symm, fun _ _ => rfl, r, hrendered, rfl⟩

structure Records (p q : Processor) (values : List (Nat × Value)) (result : Except Failure Rules)
    (new : List Interpolation) : Prop where
  interpolations : q.interpolations = p.interpolations ++ new
  varying : ∃ slots rest, p.template.holes.zipIdx = slots ++ rest ∧
    (∀ rules, result = .ok rules → rest = []) ∧
    new.map (fun i => (i.source, i.unit)) =
      (varying values slots).map fun slot => (slot.1.expr.code, slot.1.unit)

/-- A pattern that shows the index gives each expression a variable of its own. -/
structure OneEach (q : Processor) (new : List Interpolation) : Prop where
  ids : (new.map (·.id)).Nodup
  vars : ∀ i ∈ new, q.vars.get? i.id = some i.setting

/-- A pattern that shows the digest gives different variables to different texts of expressions with
their units. -/
structure OneByText (q : Processor) (new : List Interpolation) : Prop where
  ids : ∀ i ∈ new, ∀ j ∈ new, i.id = j.id → i.source ++ i.unit = j.source ++ j.unit
  vars : ∀ i ∈ new, ∃ j ∈ new, j.source ++ j.unit = i.source ++ i.unit ∧
    q.vars.get? i.id = some j.setting

theorem OneEach.of_nodup (old : List Interpolation) (hq : q.interpolations = old ++ new)
    (hids : (new.map (·.id)).Nodup) : q.OneEach new where
  ids := hids
  vars i hi := by
    obtain ⟨j, hj, hid, hget⟩ := exists_setting_append old hi
    obtain rfl := List.inj_on_of_nodup_map hids hj hi hid
    rw [vars_eq, hq, hget]

theorem OneByText.of_ids (old : List Interpolation) (hq : q.interpolations = old ++ new)
    (hids : ∀ i ∈ new, ∀ j ∈ new, i.id = j.id → i.source ++ i.unit = j.source ++ j.unit) :
    q.OneByText new where
  ids := hids
  vars i hi := by
    obtain ⟨j, hj, hid, hget⟩ := exists_setting_append old hi
    exact ⟨j, hj, hids j hj i hi hid, by rw [vars_eq, hq, hget]⟩

end Processor

/-- A processor that is asked for ids by a pattern before. -/
def Processor.askedBefore (p : Processor) (text : String) (earlier : List Request) : Processor :=
  (p.performAll (earlier.map (Call.mk (.pattern text)))).2

/-- Whatever was asked before, a build by a pattern that shows the index does not give an id twice, and
a build by a pattern that shows the digest does so only for one text of an expression with its unit. -/
theorem build_keeps_apart {t : Host} {s : SiteContext} {params : List Param} {warnings : List Warning}
    {earlier : List Request} {result : Except Failure Rules}
    (hcreate : Processor.create t s params = (.ok p, warnings))
    (hnaming : s.options.variableNaming = .pattern text)
    (hbuild : (p.askedBefore text earlier).build cache values = (result, q)) :
    ∃ new, (p.askedBefore text earlier).Records q values result new ∧
      (Findable p "index" id (pieces text) → q.OneEach new) ∧
      ∀ shown, Findable p "valueSlug" shown (pieces text) → DigestsApart shown new → q.OneByText new := by
  obtain ⟨hfresh, hoptions⟩ := Processor.fresh_of_create hcreate
  have hready : p.Ready p text := ⟨by rw [hoptions, hnaming], by rw [hfresh.issued], rfl⟩
  have hnew : (p.askedBefore text earlier).cssText = none :=
    (Processor.cssText_performAll _).trans hfresh.cssText
  obtain ⟨passages, rest, hslots, hall, r, hrendered, hr⟩ := Processor.exists_renders_build hnew hbuild
  have hq : q.interpolations = (p.askedBefore text earlier).interpolations ++ records passages := by
    rw [← hr, hrendered.interpolations_eq]
  -- both placeholders write something, so that the pattern always gives an id
  have hnumbered {name : String} (hname : name ∈ foundNames) (hmem : .placeholder name ∈ pieces text) :
      Numbered p (pieces text) (p.askedBefore text earlier).issued.next (records passages) :=
    hrendered.numbered (hready.performAll hname hmem earlier) hname hmem
  refine ⟨records passages, ⟨hq, _, rest, hslots, hall, ?_⟩, ?_, ?_⟩
  · have hrecorded := congrArg (List.map fun x : Node × String × String => x.2) hrendered.records_eq
    simpa [List.map_map, Function.comp_def] using hrecorded
  · intro hfind
    exact .of_nodup _ hq ((hnumbered (by decide) hfind.mem).nodup_ids hfind)
  · intro shown hfind hdigests
    exact .of_ids _ hq fun i hi j hj hid =>
      (hnumbered (by decide) hfind.mem).source_unit_eq hfind hdigests hi hj hid

def shownBoth : String := "[componentName]-[valueSlug]-[index]"

def threeWidths : List Param :=
  [.callee (.identifier "styled"), .member "div",
    .template ⟨"width: ", [⟨.raw "w", none, "px; margin: "⟩, ⟨.raw "w", none, "em; padding: "⟩,
      ⟨.raw "w", none, "px;"⟩], none⟩]

theorem findable_shownBoth (p : Processor) :
    Findable p "index" id (pieces shownBoth) ∧ Findable p "valueSlug" id (pieces shownBoth) := by
  have hfront : p.steadyText [.placeholder "componentName", .literal '-'] ≠ [] := by
    simp [Processor.steadyText, written, Piece.text]
  have hindex : pieces shownBoth = [.placeholder "componentName", .literal '-',
      .placeholder "valueSlug"] ++ .literal '-' :: [] ++ .placeholder "index" :: [] := by decide +kernel
  have hslug : pieces shownBoth = [.placeholder "componentName", .literal '-'] ++
      .placeholder "valueSlug" :: ([] ++ [.literal '-', .placeholder "index"]) := by decide +kernel
  constructor
  · rw [hindex]
    exact .behind rfl (by decide) (by decide)
  · rw [hslug]
    exact .ahead (by decide) hfront (by decide) (.literal rfl)

theorem threeWidths_kept_apart :
    ∃ p warnings rules q,
      Processor.create {} (namedSite (.pattern shownBoth)) threeWidths = (.ok p, warnings) ∧
      p.build {} [] = (.ok rules, q) ∧
      q.interpolations.map (fun i => (i.id, i.source, i.unit)) =
        [("Box-8ww5m9-0", "w", "px"), ("Box-1ba8kyz-1", "w", "em"), ("Box-8ww5m9-2", "w", "px")] ∧
      ∃ new, p.Records q [] (.ok rules) new ∧ DigestsApart id new ∧ q.OneEach new ∧ q.OneByText new := by
  obtain ⟨p, warnings, rules, q, hcreate, hbuild, hview, -⟩ :=
    @exists_built _ {} (namedSite (.pattern shownBoth)) threeWidths {} []
      (fun q => q.interpolations.map fun i => (i.id, i.source, i.unit))
      [("Box-8ww5m9-0", "w", "px"), ("Box-1ba8kyz-1", "w", "em"), ("Box-8ww5m9-2", "w", "px")]
      (fun _ _ => True) (fun _ _ => trivial) (by decide +kernel)
  obtain ⟨new, hrecords, hindex, hslug⟩ :
      ∃ new, p.Records q [] (.ok rules) new ∧
        (Findable p "index" id (pieces shownBoth) → q.OneEach new) ∧
        ∀ shown, Findable p "valueSlug" shown (pieces shownBoth) → DigestsApart shown new →
          q.OneByText new :=
    @build_keeps_apart _ _ p q _ _ _ _ _ [] _ hcreate rfl hbuild
  obtain ⟨hfindIndex, hfindSlug⟩ := findable_shownBoth p
  have hnew : q.interpolations = new := by
    rw [hrecords.interpolations, (Processor.fresh_of_create hcreate).1.interpolations, List.nil_append]
  have hdigests : DigestsApart id new := by
    have hkeys : new.map (fun i => i.source ++ i.unit) = ["wpx", "wem", "wpx"] := by
      have hview := congrArg (List.map fun x : String × String × String => x.2.1 ++ x.2.2) hview
      rw [hnew, List.map_map] at hview
      exact hview
    have happart : ∀ x ∈ ["wpx", "wem", "wpx"], ∀ y ∈ ["wpx", "wem", "wpx"],
        slugify x = slugify y → x = y := by decide +kernel
    rw [← hkeys] at happart
    intro i hi j hj
    exact happart _ (List.mem_map_of_mem hi) _ (List.mem_map_of_mem hj)
  exact ⟨p, warnings, rules, q, hcreate, hbuild, hview, new, hrecords, hdigests,
    hindex hfindIndex, hslug id hfindSlug hdigests⟩

def pairOf (pattern first rest second : String) : Processor :=
  .wrapping (namedSite (.pattern pattern)) (.identifier "styled")
    ⟨"width: ", [⟨.raw first, none, rest⟩, ⟨.raw second, none, ";"⟩], none⟩ (.tag "div", [])

def Processor.KeepsApart (p : Processor) : Prop :=
  ∀ i ∈ p.interpolations, ∀ j ∈ p.interpolations, (i.source, i.unit) ≠ (j.source, j.unit) → i.id ≠ j.id

def Processor.SharesId (p : Processor) : Prop :=
  DigestsApart id (p.after {} []).interpolations ∧ ¬ (p.after {} []).KeepsApart ∧
    (p.after {} []).vars.length = 1

/-- An identifier has lost a digit at its front, be it an index or the first of a digest, and a digest
does not tell a unit from the end of an expression. -/
theorem pairs_share_ids :
    (pairOf "[index]" "w" "px; height: " "h").SharesId ∧
      (pairOf "[valueSlug]" "w22888" "; height: " "w72804").SharesId ∧
      (pairOf "v[valueSlug]" "size" "px; height: " "sizepx").SharesId := by
  simp only [Processor.SharesId, DigestsApart, Processor.KeepsApart]
  decide +kernel

end CssExtract.Styled
