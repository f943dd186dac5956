import CssExtract.Proofs.Lookup
import CssExtract.Proofs.NumberRange
import CssExtract.Styled.Extraction
import Mathlib.Tactic.SplitIfs

namespace CssExtract.Styled

open Eval Evaluator
open Script Text

def InRange : Scalar → Prop
  | .number (.int n) => n.natAbs < Number.floatBound
  | _ => True

def Plain (point : Point) : Prop := ∃ s, point = .scalar s ∧ InRange s

theorem readNumber_inRange (s : List Char) : InRange (.number (readNumber s)) := by
  simp only [readNumber]
  split_ifs
  · trivial
  · split
    · rename_i h
      exact Number.natAbs_integral?_lt h
    · trivial

theorem global?_inRange {name : String} {s : Scalar} (h : global? name = some s) : InRange s := by
  simp only [global?, Entries.get?] at h
  split_ifs at h <;> obtain rfl := Option.some.inj h <;> trivial

theorem exec_raw (look : String → Evaluation Point) (text : String) (e : Evaluator) :
    (∃ point, Plain point ∧ exec (evalNode look (.raw text)) e = (.ok point, e)) ∨
    (∃ name, nameLength? isNamePart (trim text.toList) ≠ none ∧
      exec (evalNode look (.raw text)) e = exec (look name) e) ∨
    ∃ unread, exec (evalNode look (.raw text)) e = (.error (.unsupportedText unread), e) := by
  simp only [evalNode, readRaw]
  split_ifs with hnumber hstring hname
  · exact .inl ⟨_, ⟨_, rfl, readNumber_inRange _⟩, rfl⟩
  · exact .inl ⟨_, ⟨.string _, rfl, trivial⟩, rfl⟩
  · exact .inr (.inl ⟨_, by simp [hname], rfl⟩)
  · exact .inr (.inr ⟨_, rfl⟩)

variable {comp : String → Option Processor} {e e' e'' : Evaluator} {name : String} {p : Processor}
  {point : Point}

/-- The names of components are bound to their metadata, other names to literals. -/
structure Bound (comp : String → Option Processor) (bindings : Entries Node) : Prop where
  component : ∀ {name p}, comp name = some p → bindings.get? name = some p.metadata
  constant : ∀ {name node}, comp name = none → bindings.get? name = some node →
    ∃ text, node = .raw text ∧ nameLength? isNamePart (trim text.toList) = none

/-- Components are known as containers, each as one of its own, and constants as scalars. -/
structure Known (comp : String → Option Processor) (e : Evaluator) : Prop where
  bound : Bound comp e.bindings
  component : ∀ {name p point}, comp name = some p → e.known.get? name = some point →
    ∃ id, point = .container id ∧ id < e.graph.containers.size
  constant : ∀ {name point}, comp name = none → e.known.get? name = some point → Plain point
  distinct : ∀ {name name' p p' id}, comp name = some p → comp name' = some p' →
    e.known.get? name = some (.container id) → e.known.get? name' = some (.container id) → name = name'

def Leads (comp : String → Option Processor) (e : Evaluator) (reference : Option String)
    (base : Point) : Prop :=
  match reference.filter fun name => (comp name).isSome with
  | some name => e.known.get? name = some base
  | none => ∃ s, base = .scalar s

def Settled (comp : String → Option Processor) (e : Evaluator) (name : String) (p : Processor) : Prop :=
  ∃ id inner base, e.known.get? name = some (.container id) ∧
    e.graph.containers[id]? = some (.object [outerEntry p, (metadataKey, .container inner)]) ∧
    e.graph.containers[inner]? = some (.object [innerEntry p, ("extends", base)]) ∧ Leads comp e p.reference? base

/-- What is known stays known, containers stay as they are, and components that become known are
complete. -/
structure Advances (comp : String → Option Processor) (e e' : Evaluator) : Prop where
  bindings : e'.bindings = e.bindings
  known : ∀ {name point}, e.known.get? name = some point → e'.known.get? name = some point
  containers : ∀ {id}, id < e.graph.containers.size →
    e'.graph.containers[id]? = e.graph.containers[id]?
  settled : ∀ {name p point}, comp name = some p → e.known.get? name = none →
    e'.known.get? name = some point → Settled comp e' name p

theorem Advances.size_le (h : Advances comp e e') :
    e.graph.containers.size ≤ e'.graph.containers.size := by
  refine Nat.le_of_not_lt fun hlt => ?_
  have hlast := h.containers hlt
  rw [Array.getElem?_eq_none (Nat.le_refl _), Array.getElem?_eq_getElem hlt] at hlast
  simp at hlast

theorem Leads.mono {reference : Option String} {base : Point} (hbase : Leads comp e reference base)
    (hknown : ∀ {name point}, e.known.get? name = some point → e'.known.get? name = some point) :
    Leads comp e' reference base := by
  simp only [Leads] at hbase ⊢
  split at hbase
  · exact hknown hbase
  · exact hbase

theorem Settled.mono (h : Settled comp e name p)
    (hknown : ∀ {name point}, e.known.get? name = some point → e'.known.get? name = some point)
    (hcontainers : ∀ {id : Nat} {a b}, e.graph.containers[id]? = some (Container.object [a, b]) →
      e'.graph.containers[id]? = some (Container.object [a, b])) : Settled comp e' name p := by
  obtain ⟨id, inner, base, hid, houter, hinner, hbase⟩ := h
  exact ⟨id, inner, base, hknown hid, hcontainers houter, hcontainers hinner, hbase.mono hknown⟩

theorem Advances.containers_eq (h : Advances comp e e') {id : Nat} {c : Container}
    (hc : e.graph.containers[id]? = some c) : e'.graph.containers[id]? = some c := by
  obtain ⟨hlt, -⟩ := Array.getElem?_eq_some_iff.1 hc
  rw [h.containers hlt, hc]

theorem Settled.advance (hs : Settled comp e name p) (h : Advances comp e e') :
    Settled comp e' name p := hs.mono h.known h.containers_eq

theorem Advances.refl (e : Evaluator) : Advances comp e e where
  bindings := rfl
  known := id
  containers _ := rfl
  settled _ hnone hsome := by simp [hnone] at hsome

theorem Advances.trans (h : Advances comp e e') (h' : Advances comp e' e'') :
    Advances comp e e'' where
  bindings := h'.bindings.trans h.bindings
  known hk := h'.known (h.known hk)
  containers hlt := (h'.containers (Nat.lt_of_lt_of_le hlt h.size_le)).trans (h.containers hlt)
  settled {name p point} hcomp hnone hsome := by
    cases hmid : e'.known.get? name with
    | none => exact h'.settled hcomp hmid hsome
    | some point' => exact (h.settled hcomp hnone hmid).advance h'

def Looked (comp : String → Option Processor) (e : Evaluator) (name : String)
    (result : Except EvalError Point) : Prop :=
  match comp name with
  | some _ => ∃ point, result = .ok point ∧ e.known.get? name = some point
  | none => (∃ point, result = .ok point ∧ Plain point) ∨ ∃ error, result = .error error ∧ error ≠ .endless

/-- The number of bindings that are not known. -/
def unknown (e : Evaluator) : Nat := e.bindings.countP fun b => (e.known.get? b.1).isNone

theorem unknown_lt_maxDepth (e : Evaluator) : unknown e < maxDepth e := by
  have : unknown e ≤ e.bindings.length := List.countP_le_length
  simp only [maxDepth]
  calc unknown e < e.bindings.length + 1 := by omega
    _ ≤ (e.bindings.length + 1) * (e.bindings.length + 2) := Nat.le_mul_of_pos_right _ (by omega)

theorem mem_of_get? {α : Type} {entries : Entries α} {name : String} {a : α}
    (h : entries.get? name = some a) : (name, a) ∈ entries := by
  induction entries with
  | nil => simp [Entries.get?] at h
  | cons entry rest ih =>
      obtain ⟨k, v⟩ := entry
      simp only [Entries.get?] at h
      split_ifs at h with hk
      · obtain rfl := Option.some.inj h
        simp [hk]
      · exact List.mem_cons_of_mem _ (ih h)

theorem unknown_lt {node : Node} (hbinding : e.bindings.get? name = some node)
    (hknown : e.known.get? name = none) (hbindings : e'.bindings = e.bindings)
    (hadd : e'.known = e.known.set name point) : unknown e' < unknown e := by
  obtain ⟨before, after, hsplit⟩ := List.append_of_mem (mem_of_get? hbinding)
  have hle (l : Entries Node) : l.countP (fun b => (e'.known.get? b.1).isNone) ≤
      l.countP fun b => (e.known.get? b.1).isNone := by
    refine List.countP_mono_left fun b _ hb => ?_
    by_cases hname : b.1 = name
    · simp [hname, hknown]
    · rwa [hadd, Entries.get?_set_of_ne hname] at hb
  have hbefore := hle before
  have hafter := hle after
  simp only [unknown, hbindings, hsplit, List.countP_append, List.countP_cons, hknown]
  simp only [hadd] at hbefore hafter ⊢
  simp only [Entries.get?_set_self]
  simp
  omega

theorem opened_container_of_lt {id : Nat} (h : id < e.graph.containers.size) :
    (opened name p e).graph.containers[id]? = e.graph.containers[id]? := by
  simp only [opened, Array.getElem?_push, Array.size_push]
  rw [if_neg (by omega), if_neg (by omega)]

theorem opened_outer (name : String) (p : Processor) (e : Evaluator) :
    (opened name p e).graph.containers[e.graph.containers.size]? =
      some (Container.object [outerEntry p]) := by
  simp only [opened, Array.getElem?_push, Array.size_push, if_true]
  rw [if_neg (by omega)]

theorem opened_inner (name : String) (p : Processor) (e : Evaluator) :
    (opened name p e).graph.containers[e.graph.containers.size + 1]? =
      some (Container.object [innerEntry p]) := by
  simp only [opened, Array.getElem?_push, Array.size_push, if_true]

/-- Completing metadata changes its two containers and no other. -/
theorem closed_containers {id : Nat} (base : Point)
    (houter : e.graph.containers[id]? = some (Container.object [outerEntry p]))
    (hinner : e.graph.containers[id + 1]? = some (Container.object [innerEntry p])) :
    (closed id base e).graph.containers[id]? =
        some (Container.object [outerEntry p, (metadataKey, .container (id + 1))]) ∧
      (closed id base e).graph.containers[id + 1]? =
        some (Container.object [innerEntry p, ("extends", base)]) ∧
      ∀ other, other ≠ id → other ≠ id + 1 →
        (closed id base e).graph.containers[other]? = e.graph.containers[other]? := by
  obtain ⟨hlt, -⟩ := Array.getElem?_eq_some_iff.1 hinner
  have hfirst : e.graph.setEntry (id + 1) "extends" base =
      ⟨e.graph.containers.setIfInBounds (id + 1) (.object [innerEntry p, ("extends", base)])⟩ :=
    Graph.setEntry_eq hinner
  have hstill : (e.graph.setEntry (id + 1) "extends" base).containers[id]? =
      some (Container.object [outerEntry p]) := by
    rw [hfirst]
    simpa [Array.getElem?_setIfInBounds] using houter
  have hclosed : (closed id base e).graph.containers =
      (e.graph.containers.setIfInBounds (id + 1)
        (.object [innerEntry p, ("extends", base)])).setIfInBounds id
          (.object [outerEntry p, (metadataKey, .container (id + 1))]) := by
    rw [closed, Graph.setEntry_eq hstill, hfirst]
    rfl
  rw [hclosed]
  simp only [Array.getElem?_setIfInBounds, Array.size_setIfInBounds, if_true]
  refine ⟨?_, ?_, fun other hne hne' => ?_⟩
  · rw [if_pos (by omega)]
  · rw [if_neg (by omega), if_pos hlt]
  · rw [if_neg (Ne.symm hne), if_neg (Ne.symm hne')]

theorem closed_size (id : Nat) (base : Point) (e : Evaluator) :
    (closed id base e).graph.containers.size = e.graph.containers.size := by
  have hset (g : Graph) (id : Nat) (key : String) (value : Point) :
      (g.setEntry id key value).containers.size = g.containers.size := by
    simp only [Graph.setEntry]
    split <;> simp
  simp [closed, hset]

theorem get?_known_opened_self : (opened name p e).known.get? name =
    some (.container e.graph.containers.size) := Entries.get?_set_self _ _ _

theorem get?_known_opened {name' : String} (hne : name' ≠ name) :
    (opened name p e).known.get? name' = e.known.get? name' := Entries.get?_set_of_ne hne _ _

theorem Known.ne_opened {name' : String} {p' : Processor} (h : Known comp e)
    (hcomp' : comp name' = some p') : e.known.get? name' ≠ some (.container e.graph.containers.size) := by
  intro hknown
  obtain ⟨id, hid, hlt⟩ := h.component hcomp' hknown
  obtain rfl := Point.container.inj hid
  omega

theorem Known.opened (h : Known comp e) (hcomp : comp name = some p) : Known comp (opened name p e) where
  bound := h.bound
  component {name' p' point} hcomp' hknown := by
    have hsize : (Styled.opened name p e).graph.containers.size = e.graph.containers.size + 2 := by
      simp [Styled.opened]
    by_cases hname : name' = name
    · subst hname
      rw [get?_known_opened_self] at hknown
      exact ⟨_, (Option.some.inj hknown).symm, by omega⟩
    · rw [get?_known_opened hname] at hknown
      obtain ⟨id, rfl, hid⟩ := h.component hcomp' hknown
      exact ⟨id, rfl, by omega⟩
  constant {name' point} hcomp' hknown := by
    have hname : name' ≠ name := by
      rintro rfl
      simp [hcomp] at hcomp'
    rw [get?_known_opened hname] at hknown
    exact h.constant hcomp' hknown
  distinct {name₁ name₂ p₁ p₂ id} hcomp₁ hcomp₂ h₁ h₂ := by
    by_cases hn₁ : name₁ = name <;> by_cases hn₂ : name₂ = name
    · rw [hn₁, hn₂]
    · subst hn₁
      obtain rfl : e.graph.containers.size = id := by simpa [get?_known_opened_self] using h₁
      exact absurd ((get?_known_opened hn₂).symm.trans h₂) (h.ne_opened hcomp₂)
    · subst hn₂
      obtain rfl : e.graph.containers.size = id := by simpa [get?_known_opened_self] using h₂
      exact absurd ((get?_known_opened hn₁).symm.trans h₁) (h.ne_opened hcomp₁)
    · rw [get?_known_opened hn₁] at h₁
      rw [get?_known_opened hn₂] at h₂
      exact h.distinct hcomp₁ hcomp₂ h₁ h₂

/-- An evaluation that looks up a name keeps what is known and gives the value of the name. -/
structure LooksUp (comp : String → Option Processor) (e : Evaluator) (name : String)
    (out : Except EvalError Point × Evaluator) : Prop where
  known : Known comp out.2
  advances : Advances comp e out.2
  looked : Looked comp out.2 name out.1

theorem LooksUp.of_unchanged {result : Except EvalError Point} (h : Known comp e)
    (hlooked : Looked comp e name result) : LooksUp comp e name (result, e) :=
  ⟨h, .refl e, hlooked⟩

def learnt (name : String) (point : Point) (e : Evaluator) : Evaluator :=
  { e with known := e.known.set name point }

theorem ne_of_component (hcomp : comp name = none) {name' : String} {p' : Processor}
    (hcomp' : comp name' = some p') : name' ≠ name := by
  rintro rfl
  simp [hcomp] at hcomp'

theorem get?_known_learnt {name' : String} (hne : name' ≠ name) :
    (learnt name point e).known.get? name' = e.known.get? name' := Entries.get?_set_of_ne hne _ _

theorem Known.learnt (h : Known comp e) (hcomp : comp name = none) (hplain : Plain point) :
    Known comp (learnt name point e) where
  bound := h.bound
  component hcomp' hknown := by
    rw [get?_known_learnt (ne_of_component hcomp hcomp')] at hknown
    exact h.component hcomp' hknown
  constant {name' point'} hcomp' hknown := by
    by_cases hne : name' = name
    · subst hne
      obtain rfl := Option.some.inj ((Entries.get?_set_self _ _ _).symm.trans hknown)
      exact hplain
    · rw [get?_known_learnt hne] at hknown
      exact h.constant hcomp' hknown
  distinct hcomp₁ hcomp₂ h₁ h₂ := by
    rw [get?_known_learnt (ne_of_component hcomp hcomp₁)] at h₁
    rw [get?_known_learnt (ne_of_component hcomp hcomp₂)] at h₂
    exact h.distinct hcomp₁ hcomp₂ h₁ h₂

theorem Advances.learnt (hcomp : comp name = none) (hnone : e.known.get? name = none) :
    Advances comp e (learnt name point e) where
  bindings := rfl
  known {name' point'} hknown := by
    have hne : name' ≠ name := by
      rintro rfl
      simp [hnone] at hknown
    rw [get?_known_learnt hne, hknown]
  containers _ := rfl
  settled hcomp' hnone' hknown := by
    rw [get?_known_learnt (ne_of_component hcomp hcomp'), hnone'] at hknown
    simp at hknown

theorem lookup_constant {text : String} {depth : Nat} (h : Known comp e) (hcomp : comp name = none)
    (hnone : e.known.get? name = none) (hbinding : e.bindings.get? name = some (.raw text)) :
    LooksUp comp e name (exec (lookupWithin (depth + 1) name) e) := by
  obtain ⟨_, hnode, hliteral⟩ := h.bound.constant hcomp hbinding
  obtain rfl := Node.raw.inj hnode
  rw [lookupWithin_raw hnone hbinding]
  obtain ⟨point, hplain, hexec⟩ | ⟨_, hname, -⟩ | ⟨unread, hexec⟩ :=
    exec_raw (lookupWithin depth) text e
  · rw [hexec]
    refine ⟨h.learnt hcomp hplain, .learnt hcomp hnone, ?_⟩
    simp only [Looked, hcomp]
    exact .inl ⟨point, rfl, hplain⟩
  · exact absurd hliteral hname
  · rw [hexec]
    exact .of_unchanged h (by simp [Looked, hcomp])

theorem exec_baseOf {look : String → Evaluation Point} (h : Known comp e)
    (hlook : ∀ name, LooksUp comp e name (exec (look name) e)) (p : Processor) :
    ∃ base e', exec (baseOf look p) e = (.ok base, e') ∧ Known comp e' ∧ Advances comp e e' ∧
      Leads comp e' p.reference? base := by
  simp only [baseOf, Leads]
  cases href : p.reference? with
  | none => exact ⟨_, e, rfl, h, .refl e, _, rfl⟩
  | some target =>
      simp only [exec_tryCatch, Option.filter_some]
      obtain ⟨hknown, hadvances, hlooked⟩ := hlook target
      generalize exec (look target) e = out at hknown hadvances hlooked
      obtain ⟨result, e'⟩ := out
      simp only [Looked] at hlooked
      cases hcomp : comp target with
      | some p' =>
          simp only [hcomp] at hlooked
          obtain ⟨point, rfl, hpoint⟩ := hlooked
          exact ⟨point, e', rfl, hknown, hadvances, by simpa using hpoint⟩
      | none =>
          simp only [hcomp] at hlooked
          obtain ⟨point, rfl, s, rfl, -⟩ | ⟨error, rfl, hend⟩ := hlooked
          · exact ⟨_, e', rfl, hknown, hadvances, by simp⟩
          · exact ⟨.scalar .undefined, e', by simp [hend], hknown, hadvances, by simp⟩

/-- Complete metadata does not lie in the two containers of metadata that is not. -/
theorem Settled.closed {id : Nat} {base : Point} {name' : String} {p' : Processor}
    (houter : e.graph.containers[id]? = some (Container.object [outerEntry p]))
    (hinner : e.graph.containers[id + 1]? = some (Container.object [innerEntry p]))
    (h : Settled comp e name' p') : Settled comp (closed id base e) name' p' := by
  refine h.mono (fun hknown => hknown) fun {other a b} hother => ?_
  rw [(closed_containers base houter hinner).2.2]
  · exact hother
  · rintro rfl
    simp [houter] at hother
  · rintro rfl
    simp [hinner] at hother

theorem lookup_component {depth : Nat} (h : Known comp e) (hcomp : comp name = some p)
    (hnone : e.known.get? name = none)
    (ih : ∀ target, LooksUp comp (opened name p e) target
      (exec (lookupWithin depth target) (opened name p e))) :
    LooksUp comp e name (exec (lookupWithin (depth + 1) name) e) := by
  rw [lookupWithin_metadata hnone (h.bound.component hcomp)]
  obtain ⟨base, e', hexec, hknown', hadvances, hbase⟩ :=
    exec_baseOf (h.opened hcomp) ih p
  rw [hexec]
  have houter := hadvances.containers_eq (opened_outer name p e)
  have hinner := hadvances.containers_eq (opened_inner name p e)
  obtain ⟨hid, hid', hrest⟩ := closed_containers base houter hinner
  have hself : e'.known.get? name = some (.container e.graph.containers.size) :=
    hadvances.known get?_known_opened_self
  have hstays {name' point'} (hk : e.known.get? name' = some point') :
      e'.known.get? name' = some point' := by
    refine hadvances.known ((get?_known_opened ?_).trans hk)
    rintro rfl
    simp [hnone] at hk
  refine ⟨⟨hknown'.bound, ?_, hknown'.constant, hknown'.distinct⟩,
    ⟨hadvances.bindings, hstays, ?_, ?_⟩, ?_⟩
  · intro name' p' point' hcomp' hk
    rw [closed_size]
    exact hknown'.component hcomp' hk
  · intro id hlt
    rw [hrest id (by omega) (by omega), hadvances.containers, opened_container_of_lt hlt]
    exact Nat.lt_of_lt_of_le hlt (by simp [opened]; omega)
  · intro name' p' point' hcomp' hnone' hk
    by_cases hne : name' = name
    · subst hne
      obtain rfl : p = p' := Option.some.inj (hcomp.symm.trans hcomp')
      exact ⟨_, _, base, hself, hid, hid', hbase⟩
    · exact (hadvances.settled hcomp' ((get?_known_opened hne).trans hnone') hk).closed houter hinner
  · simp only [Looked, hcomp]
    exact ⟨_, rfl, hself⟩

/-- The depth is enough when there are fewer names to enter on the way down. -/
theorem lookupWithin_spec {depth : Nat} (h : Known comp e) (hdepth : unknown e < depth)
    (name : String) : LooksUp comp e name (exec (lookupWithin depth name) e) := by
  induction depth generalizing e name with
  | zero => omega
  | succ depth ih =>
      cases hknown : e.known.get? name with
      | some point =>
          rw [lookupWithin_known hknown]
          refine .of_unchanged h ?_
          simp only [Looked]
          split
          · exact ⟨point, rfl, hknown⟩
          · rename_i hcomp
            exact .inl ⟨point, rfl, h.constant hcomp hknown⟩
      | none =>
          cases hcomp : comp name with
          | some p =>
              refine lookup_component h hcomp hknown fun target => ?_
              have hlt : unknown (opened name p e) < unknown e :=
                unknown_lt (h.bound.component hcomp) hknown rfl rfl
              exact ih (h.opened hcomp) (by omega) target
          | none =>
              cases hbinding : e.bindings.get? name with
              | some node =>
                  obtain ⟨text, rfl, -⟩ := h.bound.constant hcomp hbinding
                  exact lookup_constant h hcomp hknown hbinding
              | none =>
                  rw [lookupWithin_unbound hknown hbinding]
                  refine .of_unchanged h ?_
                  simp only [Looked, hcomp]
                  cases hglobal : global? name with
                  | some s => exact .inl ⟨_, rfl, s, rfl, global?_inRange hglobal⟩
                  | none => exact .inr ⟨_, rfl, by simp⟩

theorem lookup_spec (h : Known comp e) (name : String) :
    LooksUp comp e name (exec (lookup name) e) := by
  rw [lookup, exec_bind, exec_get]
  exact lookupWithin_spec h (unknown_lt_maxDepth e) name

/-- The values of names are what is known of them. -/
structure Sampled (comp : String → Option Processor) (e : Evaluator) (points : Entries Point) :
    Prop where
  component : ∀ {name p point}, comp name = some p → points.get? name = some point →
    e.known.get? name = some point
  constant : ∀ {name point}, comp name = none → points.get? name = some point → Plain point

theorem Sampled.advance {points : Entries Point} (h : Sampled comp e points)
    (hadvances : Advances comp e e') : Sampled comp e' points where
  component hcomp hget := hadvances.known (h.component hcomp hget)
  constant := h.constant

theorem Sampled.cons {points : Entries Point} (h : Sampled comp e points)
    (hlooked : Looked comp e name (.ok point)) : Sampled comp e ((name, point) :: points) := by
  simp only [Looked] at hlooked
  constructor
  · intro name' p' point' hcomp hget
    simp only [Entries.get?] at hget
    split_ifs at hget with hname
    · subst hname
      obtain rfl := Option.some.inj hget
      simp only [hcomp] at hlooked
      obtain ⟨_, hpoint, hknown⟩ := hlooked
      obtain rfl := Except.ok.inj hpoint
      exact hknown
    · exact h.component hcomp hget
  · intro name' point' hcomp hget
    simp only [Entries.get?] at hget
    split_ifs at hget with hname
    · subst hname
      obtain rfl := Option.some.inj hget
      simpa [hcomp] using hlooked
    · exact h.constant hcomp hget

theorem run_valuesOf_cons (name : String) (names : List String) (e : Evaluator) :
    (valuesOf (name :: names)).run e =
      match exec (lookup name) e with
      | (.ok point, e') =>
        let rest := (valuesOf names).run e'
        ((name, point) :: rest.1, rest.2)
      | (.error _, e') => (valuesOf names).run e' := by
  simp only [valuesOf, StateT.run_bind, exec]
  rcases (lookup name).run.run e with ⟨_ | _, e'⟩ <;> rfl

theorem valuesOf_spec (h : Known comp e) (names : List String) :
    ∃ points e', (valuesOf names).run e = (points, e') ∧ Known comp e' ∧ Advances comp e e' ∧
      Sampled comp e' points ∧
      ∀ {name p}, comp name = some p → name ∈ names → ∃ point, points.get? name = some point := by
  induction names generalizing e with
  | nil => exact ⟨[], e, rfl, h, .refl e, ⟨by simp [Entries.get?], by simp [Entries.get?]⟩, by simp⟩
  | cons name names ih =>
      obtain ⟨hknown, hadvances, hlooked⟩ := lookup_spec h name
      rw [run_valuesOf_cons]
      generalize exec (lookup name) e = out at hknown hadvances hlooked
      obtain ⟨result, e'⟩ := out
      obtain ⟨points, e'', hrest, hknown', hadvances', hsampled, hall⟩ := ih hknown
      cases result with
      | ok point =>
          simp only [hrest] at hlooked ⊢
          have hlooked' : Looked comp e'' name (.ok point) := by
            simp only [Looked] at hlooked ⊢
            cases hcomp : comp name with
            | some p =>
                simp only [hcomp] at hlooked ⊢
                obtain ⟨point', hpoint, hk⟩ := hlooked
                exact ⟨point', hpoint, hadvances'.known hk⟩
            | none => simpa [hcomp] using hlooked
          refine ⟨_, _, rfl, hknown', hadvances.trans hadvances', hsampled.cons hlooked', ?_⟩
          intro name' p' hcomp hmem
          by_cases hname : name = name'
          · exact ⟨point, by simp [Entries.get?, hname]⟩
          · obtain ⟨point', hget⟩ :=
              hall hcomp ((List.mem_cons.1 hmem).resolve_left (Ne.symm hname))
            exact ⟨point', by simp [Entries.get?, hname, hget]⟩
      | error error =>
          refine ⟨points, e'', hrest, hknown', hadvances.trans hadvances', hsampled, ?_⟩
          intro name' p' hcomp hmem
          rcases List.mem_cons.1 hmem with rfl | hmem
          · simp [Looked, hcomp] at hlooked
          · exact hall hcomp hmem

structure Complete (comp : String → Option Processor) (e : Evaluator) : Prop where
  known : Known comp e
  settled : ∀ {name p}, comp name = some p → Settled comp e name p

theorem Complete.advance (h : Complete comp e) (hknown : Known comp e')
    (hadvances : Advances comp e e') : Complete comp e' :=
  ⟨hknown, fun hcomp => (h.settled hcomp).advance hadvances⟩

theorem values_spec (hbound : Bound comp e.bindings) (hfresh : e.known = []) :
    ∃ points e', values.run e = (points, e') ∧ Complete comp e' ∧ Sampled comp e' points ∧
      ∀ {name p}, comp name = some p → ∃ point, points.get? name = some point := by
  have hknown : Known comp e := by
    refine ⟨hbound, ?_, ?_, ?_⟩ <;> simp [hfresh, Entries.get?]
  obtain ⟨points, e', hrun, hknown', hadvances, hsampled, hall⟩ :=
    valuesOf_spec hknown (e.bindings.map (·.1))
  have hnames {name p} (hcomp : comp name = some p) : ∃ point, points.get? name = some point :=
    hall hcomp (List.mem_map_of_mem (mem_of_get? (hbound.component hcomp)))
  refine ⟨points, e', hrun, ⟨hknown', fun {name p} hcomp => ?_⟩, hsampled, hnames⟩
  obtain ⟨point, hget⟩ := hnames hcomp
  exact hadvances.settled hcomp (by simp [hfresh, Entries.get?]) (hsampled.component hcomp hget)

/-- A value that can stand for an expression: a scalar, or something with metadata. -/
def Usable (v : Value) : Prop := (∃ s, v = .scalar s ∧ InRange s) ∨ v.metadata?.isSome

theorem spread_object {g : Graph} {id fuel : Nat} {path : List Nat} {entries : Entries Point}
    (h : g.containers[id]? = some (.object entries)) (hnew : path.idxOf? id = none) :
    g.spread (fuel + 1) path (.container id) =
      .object (entries.map fun (k, v) => (k, g.spread fuel (id :: path) v)) := by
  simp only [Graph.spread, hnew, h]

theorem Settled.metadata?_toValue {id : Nat} (h : Settled comp e name p)
    (hid : e.known.get? name = some (.container id)) :
    ∃ base, (e.graph.toValue (.container id)).metadata? = some (p.className, base) := by
  obtain ⟨id', inner, base, hknown, houter, hinner, -⟩ := h
  obtain rfl : id = id' := by simpa [hid] using hknown
  have hne : inner ≠ id := by
    rintro rfl
    simp [houter, innerEntry, outerEntry] at hinner
  obtain ⟨hlt, -⟩ := Array.getElem?_eq_some_iff.1 houter
  obtain ⟨fuel, hfuel⟩ := Nat.exists_eq_add_of_lt hlt
  have hidx : [id].idxOf? inner = none := by simp [List.idxOf?_cons, Ne.symm hne]
  rw [Graph.toValue, hfuel, spread_object houter rfl]
  simp only [List.map_cons, List.map_nil, spread_object hinner hidx]
  simp [Graph.spread, Value.metadata?, Entries.get?, outerEntry, metadataKey, innerEntry]

def IsComponent (comp : String → Option Processor) (e : Evaluator) (point : Point) : Prop :=
  ∃ name p id, comp name = some p ∧ point = .container id ∧
    e.known.get? name = some (.container id)

theorem Looked.plain_or_component (h : Looked comp e name (.ok point)) (hknown : Known comp e) :
    Plain point ∨ IsComponent comp e point := by
  simp only [Looked] at h
  cases hcomp : comp name with
  | some p =>
      simp only [hcomp] at h
      obtain ⟨_, hsame, hname⟩ := h
      obtain rfl := Except.ok.inj hsame
      obtain ⟨id, rfl, -⟩ := hknown.component hcomp hname
      exact .inr ⟨name, p, id, hcomp, rfl, hname⟩
  | none => exact .inl (by simpa [hcomp] using h)

theorem exec_evaluate_raw (h : Complete comp e) (text : String) :
    ∃ result e', exec (evaluate (.raw text)) e = (result, e') ∧ Known comp e' ∧
      Advances comp e e' ∧ ∀ point, result = .ok point → Plain point ∨ IsComponent comp e' point := by
  have heval : exec (evaluate (.raw text)) e =
      exec (evalNode (lookupWithin (maxDepth e)) (.raw text)) e := by
    rw [evaluate, exec_bind, exec_get]
  rw [heval]
  obtain ⟨point, hplain, hexec⟩ | ⟨name, -, hexec⟩ | ⟨unread, hexec⟩ :=
    exec_raw (lookupWithin (maxDepth e)) text e
  · rw [hexec]
    refine ⟨_, e, rfl, h.known, .refl e, ?_⟩
    rintro _ ⟨⟩
    exact .inl hplain
  · rw [hexec]
    have hspec := lookupWithin_spec h.known (unknown_lt_maxDepth e) name
    generalize exec (lookupWithin (maxDepth e) name) e = out at hspec
    obtain ⟨result, e'⟩ := out
    refine ⟨result, e', rfl, hspec.known, hspec.advances, ?_⟩
    rintro point rfl
    exact hspec.looked.plain_or_component hspec.known
  · rw [hexec]
    refine ⟨_, e, rfl, h.known, .refl e, ?_⟩
    rintro _ ⟨⟩

theorem run_holeValues_cons {hole : TemplateHole} {text : String} (htext : hole.expr = .raw text)
    (holes : List TemplateHole) (index : Nat) (e : Evaluator) :
    (holeValues (hole :: holes) index).run e =
      match exec (evaluate (.raw text)) e with
      | (.ok point, e') =>
        let rest := (holeValues holes (index + 1)).run e'
        ((index, rest.2.graph.toValue point) :: rest.1, rest.2)
      | (.error _, e') => (holeValues holes (index + 1)).run e' := by
  simp only [holeValues, htext, StateT.run_bind, exec]
  rcases (evaluate (.raw text)).run.run e with ⟨_ | _, e'⟩ <;> rfl

theorem holeValues_spec (h : Complete comp e) {holes : List TemplateHole}
    (hraw : ∀ hole ∈ holes, ∃ text, hole.expr = .raw text) (index : Nat) :
    ∃ values e', (holeValues holes index).run e = (values, e') ∧ Complete comp e' ∧
      Advances comp e e' ∧ ∀ known ∈ values, Usable known.2 := by
  induction holes generalizing e index with
  | nil => exact ⟨[], e, rfl, h, .refl e, by simp⟩
  | cons hole holes ih =>
      obtain ⟨⟨text, htext⟩, hraw⟩ := List.forall_mem_cons.1 hraw
      obtain ⟨result, e', hexec, hknown, hadvances, hpoint⟩ := exec_evaluate_raw h text
      obtain ⟨values, e'', hrest, hcomplete, hadvances', hvalues⟩ :=
        ih (h.advance hknown hadvances) hraw (index + 1)
      rw [run_holeValues_cons htext, hexec]
      cases result with
      | error error => exact ⟨values, e'', hrest, hcomplete, hadvances.trans hadvances', hvalues⟩
      | ok point =>
          simp only [hrest]
          refine ⟨_, _, rfl, hcomplete, hadvances.trans hadvances', ?_⟩
          refine List.forall_mem_cons.2 ⟨?_, hvalues⟩
          obtain ⟨s, rfl, hs⟩ | ⟨name, p, id, hcomp, rfl, hname⟩ := hpoint point rfl
          · exact .inl ⟨s, by simp [Graph.toValue, Graph.spread], hs⟩
          · obtain ⟨base, hbase⟩ :=
              (hcomplete.settled hcomp).metadata?_toValue (hadvances'.known hname)
            exact .inr (by simp [hbase])

end CssExtract.Styled
