import CssExtract.Proofs.VariableIds
import Mathlib.Data.List.Forall2

namespace CssExtract.Styled

open Eval Script

theorem unitAt_append_drop (s : List Char) : unitAt s ++ s.drop (unitAt s).length = s := by
  have hprefix : unitAt s <+: s := by
    simp only [unitAt]
    split_ifs with hpercent
    · cases s with
      | nil => simp at hpercent
      | cons c s =>
          obtain rfl := Option.some.inj hpercent
          exact ⟨s, rfl⟩
    · exact List.takeWhile_prefix _
    · exact List.nil_prefix
  exact List.prefix_iff_eq_append.1 hprefix

namespace TemplateHole

variable (hole : TemplateHole)

def unit : String := String.ofList (unitAt hole.text.toList)

def afterUnit : String := String.ofList (hole.text.toList.drop (unitAt hole.text.toList).length)

theorem unit_append : hole.unit ++ hole.afterUnit = hole.text := by
  rw [unit, afterUnit, ← String.ofList_append, unitAt_append_drop, String.ofList_toList]

def key : String × String := (hole.expr.code, hole.unit)

end TemplateHole

abbrev Slot := TemplateHole × Nat

def Slot.varies (values : List (Nat × Value)) (slot : Slot) : Bool :=
  match values.lookup slot.2 with
  | none | some (.scalar .function) => true
  | _ => false

theorem fixedValue?_eq_none_iff {values : List (Nat × Value)} {slot : Slot} :
    Processor.fixedValue? values slot.2 = none ↔ slot.varies values = true := by
  simp only [Processor.fixedValue?, Slot.varies]
  cases values.lookup slot.2 with
  | none => simp
  | some value =>
      cases value with
      | scalar s => cases s <;> simp
      | _ => simp

inductive Inserted (values : List (Nat × Value)) (id : Slot → String) : Slot → String → Prop
  | varies {slot : Slot} {rest : String} (hvaries : slot.varies values = true)
      (hrest : slot.1.unit ++ rest = slot.1.text) :
      Inserted values id slot ("var(--" ++ id slot ++ ")" ++ rest)
  | fixed {slot : Slot} {value : Value} {text : String} (hvaries : slot.varies values = false)
      (hvalue : values.lookup slot.2 = some value) (htext : Processor.valueText value slot.1 = .ok text) :
      Inserted values id slot (text ++ slot.1.text)

def varying (values : List (Nat × Value)) (slots : List Slot) : List Slot :=
  slots.filter (·.varies values)

theorem varying_cons (values : List (Nat × Value)) (slot : Slot) (slots : List Slot) :
    varying values (slot :: slots) =
      if slot.varies values then slot :: varying values slots else varying values slots :=
  List.filter_cons

def interpolationOf (slug : String) (keys : List (String × String)) (slot : Slot) : Interpolation :=
  ⟨idIn slug keys slot.1.key, .arrow [] slot.1.expr, slot.1.expr.code, slot.1.unit⟩

namespace Processor

variable {p q : Processor} {values : List (Nat × Value)} {css text : String} {hole : TemplateHole}
  {index : Nat} {keys : List (String × String)}

/-- The ids issued so far are those of keys, and each further one is by its number. -/
structure Numbering (p : Processor) (keys : List (String × String)) : Prop where
  naming : p.options.variableNaming = .default
  issued : p.issued = issuedFor p.slug keys

def withVariable (p : Processor) (slot : Slot) (keys : List (String × String)) : Processor :=
  { p with
    issued := issuedFor p.slug keys
    interpolations := p.interpolations ++ [interpolationOf p.slug keys slot] }

theorem variableId_eq (h : p.Numbering keys) (source unit : String) :
    p.variableId source unit css =
      (idIn p.slug (withKey keys (source, unit)) (source, unit),
        { p with issued := issuedFor p.slug (withKey keys (source, unit)) }) := by
  have hid : (Variables.idFor .default (p.context source unit css)).run (issuedFor p.slug keys) = _ :=
    idFor_default (p.context source unit css) keys
  simp only [variableId, onVariables, h.naming, h.issued, hid]
  rfl

theorem buildHole_varies (h : p.Numbering keys) (hcode : hole.expr.isCode = true)
    (hvaries : Slot.varies values (hole, index) = true) :
    p.buildHole values css hole index =
      (.ok ("var(--" ++ idIn p.slug (withKey keys hole.key) hole.key ++ ")" ++ hole.afterUnit),
        p.withVariable (hole, index) (withKey keys hole.key)) := by
  have hfixed : fixedValue? values index = none := fixedValue?_eq_none_iff.2 hvaries
  simp only [buildHole, Node.code?, hcode, if_true, hfixed, addInterpolation, variableId_eq h]
  rfl

theorem buildHole_fixed {value : Value} (hcode : hole.expr.isCode = true)
    (hfixed : fixedValue? values index = some value) :
    p.buildHole values css hole index = ((valueText value hole).map (· ++ hole.text), p) := by
  simp only [buildHole, Node.code?, hcode, if_true, hfixed]

/-- What expressions leave behind: their texts in the style sheet, and what is recorded of those
that become variables. All have ids by the keys in the end. -/
structure Filled (values : List (Nat × Value)) (slots : List Slot) (p q : Processor)
    (keys : List (String × String)) (css text : String) : Prop where
  code : ∀ slot ∈ slots, slot.1.expr.isCode = true
  mem : ∀ slot ∈ varying values slots, slot.1.key ∈ keys
  interpolations : q.interpolations =
    p.interpolations ++ (varying values slots).map (interpolationOf p.slug keys)
  pieces : ∃ pieces, text = css ++ String.join pieces ∧
    List.Forall₂ (Inserted values fun slot => idIn p.slug keys slot.1.key) slots pieces

variable {slot : Slot} {slots : List Slot} {keys' : List (String × String)} {piece : String}

theorem Filled.cons_fixed (h : Filled values slots p q keys (css ++ piece) text)
    (hcode : slot.1.expr.isCode = true) (hvaries : slot.varies values = false)
    (hpiece : Inserted values (fun slot => idIn p.slug keys slot.1.key) slot piece) :
    Filled values (slot :: slots) p q keys css text where
  code := List.forall_mem_cons.2 ⟨hcode, h.code⟩
  mem := by simpa [varying_cons, hvaries] using h.mem
  interpolations := by simpa [varying_cons, hvaries] using h.interpolations
  pieces := by
    obtain ⟨pieces, rfl, hpieces⟩ := h.pieces
    refine ⟨piece :: pieces, ?_, .cons hpiece hpieces⟩
    rw [String.join_cons]
    exact String.append_assoc

theorem Filled.cons_varies (hkeys : keys <+: keys') (hmem : slot.1.key ∈ keys)
    (h : Filled values slots (p.withVariable slot keys) q keys'
      (css ++ ("var(--" ++ idIn p.slug keys slot.1.key ++ ")" ++ slot.1.afterUnit)) text)
    (hcode : slot.1.expr.isCode = true) (hvaries : slot.varies values = true) :
    Filled values (slot :: slots) p q keys' css text where
  code := List.forall_mem_cons.2 ⟨hcode, h.code⟩
  mem := by
    rw [varying_cons, if_pos hvaries]
    exact List.forall_mem_cons.2 ⟨hkeys.subset hmem, h.mem⟩
  interpolations := by
    have hone : interpolationOf p.slug keys' slot = interpolationOf p.slug keys slot := by
      simp only [interpolationOf, idIn_of_prefix hkeys hmem]
    rw [varying_cons, if_pos hvaries, List.map_cons, hone, h.interpolations]
    simp [withVariable]
  pieces := by
    obtain ⟨pieces, rfl, hpieces⟩ := h.pieces
    refine ⟨_ :: pieces, ?_, .cons (.varies hvaries slot.1.unit_append) hpieces⟩
    rw [String.join_cons, idIn_of_prefix hkeys hmem]
    exact String.append_assoc

theorem exists_filled {holes : List TemplateHole} (h : p.Numbering keys)
    (hbuild : buildHoles values holes index css p = (.ok text, q)) :
    ∃ keys', keys <+: keys' ∧ Filled values (holes.zipIdx index) p q keys' css text := by
  induction holes generalizing index css p keys with
  | nil =>
      obtain ⟨rfl, rfl⟩ : css = text ∧ p = q := by simpa [buildHoles] using hbuild
      exact ⟨keys, List.prefix_refl keys, by simp, by simp [varying], by simp [varying], [], by simp, .nil⟩
  | cons hole holes ih =>
      rw [List.zipIdx_cons]
      rw [buildHoles] at hbuild
      cases hcode : hole.expr.isCode with
      | false => simp [buildHole, Node.code?, hcode] at hbuild
      | true =>
          cases hvaries : Slot.varies values (hole, index) with
          | true =>
              rw [buildHole_varies h hcode hvaries] at hbuild
              simp only at hbuild
              have hnext : (p.withVariable (hole, index) (withKey keys hole.key)).Numbering
                  (withKey keys hole.key) := ⟨h.naming, rfl⟩
              obtain ⟨keys', hkeys, hfilled⟩ := ih hnext hbuild
              exact ⟨keys', (prefix_withKey keys hole.key).trans hkeys,
                .cons_varies hkeys (mem_withKey keys hole.key) hfilled hcode hvaries⟩
          | false =>
              cases hfixed : fixedValue? values index with
              | none =>
                  have : Slot.varies values (hole, index) = true := fixedValue?_eq_none_iff.1 hfixed
                  simp [hvaries] at this
              | some value =>
                  rw [buildHole_fixed hcode hfixed] at hbuild
                  cases htext : valueText value hole with
                  | error failure => simp [htext, Except.map] at hbuild
                  | ok inserted =>
                      simp only [htext, Except.map] at hbuild
                      obtain ⟨keys', hkeys, hfilled⟩ := ih h hbuild
                      exact ⟨keys', hkeys, hfilled.cons_fixed hcode hvaries
                        (.fixed hvaries (lookup_of_fixedValue? hfixed) htext)⟩

/-- The style sheet text and the wrapper of a processor that is built have the same variables. -/
structure Agrees (p q : Processor) (values : List (Nat × Value)) (id : Slot → String) : Prop where
  text : ∃ pieces, q.cssText = some (p.template.first ++ String.join pieces) ∧
    List.Forall₂ (Inserted values id) p.template.holes.zipIdx pieces
  absent : q.props.lookup "vars" = none ↔ varying values p.template.holes.zipIdx = []
  vars : varying values p.template.holes.zipIdx ≠ [] → ∃ vars : Entries (List Node),
    q.props.lookup "vars" = some (.vars vars) ∧
      vars.map (·.1) = ((varying values p.template.holes.zipIdx).map id).eraseDups ∧
      ∀ slot ∈ varying values p.template.holes.zipIdx, ∃ body source,
        slot.1.expr.code? = some source ∧ body.code? = some source ∧
          vars.get? (id slot) = some (.call (.arrow [] body) [] ::
            if slot.1.unit = "" then [] else [.quoted slot.1.unit])
  shared : ∀ a ∈ varying values p.template.holes.zipIdx,
    ∀ b ∈ varying values p.template.holes.zipIdx,
      id a = id b ↔ a.1.expr.code? = b.1.expr.code? ∧ a.1.unit = b.1.unit

theorem lookup_vars (q : Processor) : q.props.lookup "vars" =
    if q.interpolations = [] then none else some (.vars (settings q.interpolations)) := by
  simp only [props, vars, settings, Interpolation.setting]
  cases q.interpolations with
  | nil => rfl
  | cons i l => rfl

theorem Filled.agrees {keys : List (String × String)} (hnew : p.interpolations = [])
    (h : Filled values p.template.holes.zipIdx p q keys p.template.first text)
    (htext : q.cssText = some text) : p.Agrees q values fun slot => idIn p.slug keys slot.1.key := by
  have hinterpolations := h.interpolations
  rw [hnew, List.nil_append] at hinterpolations
  have hcode {slot : Slot} (hslot : slot ∈ varying values p.template.holes.zipIdx) :
      slot.1.expr.code? = some slot.1.expr.code := by
    simp [Node.code?, h.code slot (List.mem_filter.1 hslot).1]
  constructor
  case text =>
    obtain ⟨pieces, rfl, hpieces⟩ := h.pieces
    exact ⟨pieces, htext, hpieces⟩
  case absent =>
    rw [lookup_vars, hinterpolations]
    simp
  case vars =>
    intro hsome
    refine ⟨settings q.interpolations, ?_, ?_, fun slot hslot => ?_⟩
    · rw [lookup_vars, if_neg (by simpa [hinterpolations] using hsome)]
    · rw [keys_settings, hinterpolations, List.map_map]
      rfl
    · have hmem : interpolationOf p.slug keys slot ∈ q.interpolations := by
        rw [hinterpolations]
        exact List.mem_map_of_mem hslot
      obtain ⟨_, hj, hid, hget⟩ := exists_setting hmem
      rw [hinterpolations] at hj
      obtain ⟨other, hother, rfl⟩ := List.mem_map.1 hj
      -- the last of the expressions that share the variable has the same key
      obtain ⟨hsource, hunit⟩ := Prod.mk.inj ((idIn_inj (h.mem other hother)).1 hid)
      refine ⟨other.1.expr, slot.1.expr.code, hcode hslot, hsource ▸ hcode hother, ?_⟩
      simpa [interpolationOf, Interpolation.setting, hunit] using hget
  case shared =>
    intro a ha b hb
    rw [idIn_inj (h.mem a ha), hcode ha, hcode hb, Option.some.injEq, TemplateHole.key,
      TemplateHole.key, Prod.mk.injEq]

end Processor

/-- Without a naming of the project, what a processor puts into its style sheet and what its wrapper
sets are the same variables. -/
theorem build_agrees {t : Host} {s : SiteContext} {params : List Param} {p q : Processor}
    {warnings : List Warning} {cache : ValueCache} {values : List (Nat × Value)} {rules : Rules}
    (hcreate : Processor.create t s params = (.ok p, warnings))
    (hnaming : s.options.variableNaming = .default)
    (hbuild : p.build cache values = (.ok rules, q)) : ∃ id, p.Agrees q values id := by
  obtain ⟨node, operation, template, found, -, -, rfl⟩ :=
    Processor.create_eq_ok (congrArg Prod.fst hcreate)
  have hfresh := Processor.wrapping_fresh s node template found
  have hnumbering : (Processor.wrapping s node template found).Numbering [] := ⟨hnaming, rfl⟩
  simp only [Processor.build, hfresh.cssText, Option.isSome_none, Bool.false_eq_true, if_false] at hbuild
  split at hbuild
  · simp at hbuild
  · rename_i css q' hholes
    obtain ⟨keys, -, hfilled⟩ := Processor.exists_filled hnumbering hholes
    obtain ⟨-, rfl⟩ := Prod.mk.inj hbuild
    exact ⟨_, Processor.Filled.agrees hfresh.interpolations ⟨hfilled.code, hfilled.mem,
      hfilled.interpolations, hfilled.pieces⟩ rfl⟩

def repeatedWidth : List Param :=
  [.callee (.identifier "styled"), .member "div",
    .template ⟨"width: ", [⟨.raw "w", none, "px; height: "⟩, ⟨.raw "h", none, "px; margin: "⟩,
      ⟨.raw "w", none, "px;"⟩], none⟩]

theorem repeatedWidth_agrees :
    ∃ p warnings rules q,
      Processor.create {} ⟨"Box", 0, {}, none, none⟩ repeatedWidth = (.ok p, warnings) ∧
      ({} : Options).variableNaming = .default ∧
      p.build {} [(1, .string "4")] = (.ok rules, q) ∧
      (q.interpolations.length, q.vars.length) = (2, 1) ∧
      ∃ id, p.Agrees q [(1, .string "4")] id := by
  have hparts : (Processor.create {} ⟨"Box", 0, {}, none, none⟩ repeatedWidth).1.toOption.map
      (fun p =>
        let built := p.build {} [(1, .string "4")]
        (built.1.toOption.isSome, built.2.interpolations.length, built.2.vars.length)) =
      some (true, 2, 1) := by
    decide +kernel
  cases hcreate : Processor.create {} ⟨"Box", 0, {}, none, none⟩ repeatedWidth with
  | mk created warnings =>
      cases created with
      | error e => simp [hcreate, Except.toOption] at hparts
      | ok p =>
          cases hbuild : p.build {} [(1, .string "4")] with
          | mk built q =>
              simp only [hcreate, hbuild, Except.toOption, Option.map_some, Option.some.injEq,
                Prod.mk.injEq] at hparts
              obtain ⟨hbuilt, hinterpolations, hvars⟩ := hparts
              cases built with
              | error failure => simp at hbuilt
              | ok rules =>
                  exact ⟨p, warnings, rules, q, rfl, rfl, hbuild, by rw [hinterpolations, hvars],
                    build_agrees hcreate rfl hbuild⟩

end CssExtract.Styled
