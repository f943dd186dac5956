import CssExtract.Proofs.Exec
import CssExtract.Styled.Processor

namespace CssExtract.Eval

open Evaluator

variable {e : Evaluator} {depth : Nat} {name : String}

namespace Evaluator

theorem lookupWithin_known {point : Point} (h : e.known.get? name = some point) :
    exec (lookupWithin (depth + 1) name) e = (.ok point, e) := by
  simp [lookupWithin, exec_bind, h]

theorem lookupWithin_unbound (hknown : e.known.get? name = none)
    (hbinding : e.bindings.get? name = none) :
    exec (lookupWithin (depth + 1) name) e =
      (match global? name with
        | some s => .ok (.scalar s)
        | none => .error (.unbound name), e) := by
  simp only [lookupWithin]
  cases global? name <;> simp [exec_bind, hknown, hbinding]

theorem lookupWithin_raw {text : String} (hknown : e.known.get? name = none)
    (hbinding : e.bindings.get? name = some (.raw text)) :
    exec (lookupWithin (depth + 1) name) e =
      match exec (evalNode (lookupWithin depth) (.raw text)) e with
      | (.ok point, e') => (.ok point, { e' with known := e'.known.set name point })
      | (.error error, e') => (.error error, e') := by
  simp only [lookupWithin, exec_bind, exec_get, hknown, hbinding, exec_know, exec_pure]
  rcases exec (evalNode (lookupWithin depth) (.raw text)) e with ⟨_ | _, _⟩ <;> rfl

end Evaluator

theorem Graph.setEntry_eq {g : Graph} {id : Nat} {entries : Entries Point} {key : String}
    {value : Point} (h : g.containers[id]? = some (.object entries)) :
    g.setEntry id key value =
      ⟨g.containers.setIfInBounds id (.object (entries.set key value))⟩ := by
  simp [Graph.setEntry, h]

theorem Graph.setEntry_push (containers : Array Container) (entries : Entries Point) (key : String)
    (value : Point) :
    Graph.setEntry ⟨containers.push (.object entries)⟩ containers.size key value =
      ⟨containers.push (.object (entries.set key value))⟩ := by
  have h : (containers.push (.object entries))[containers.size]? = some (.object entries) :=
    Array.getElem?_push_size
  rw [Graph.setEntry_eq (g := ⟨containers.push (.object entries)⟩) h]
  simp [Array.setIfInBounds, Array.set_push]

end CssExtract.Eval

namespace CssExtract.Styled

open Eval Evaluator
open Script (Node)

def Processor.reference? (p : Processor) : Option String :=
  match p.component with
  | .reference name _ false => some name
  | _ => none

variable {e : Evaluator} {depth : Nat} {name : String} {p : Processor}

def outerEntry (p : Processor) : String × Point := ("displayName", .scalar (.string p.displayName))

def innerEntry (p : Processor) : String × Point := ("className", .scalar (.string p.className))

def opened (name : String) (p : Processor) (e : Evaluator) : Evaluator :=
  { e with
    known := e.known.set name (.container e.graph.containers.size)
    graph := ⟨(e.graph.containers.push (.object [outerEntry p])).push (.object [innerEntry p])⟩ }

def closed (id : Nat) (base : Point) (e : Evaluator) : Evaluator :=
  { e with
    graph := (e.graph.setEntry (id + 1) "extends" base).setEntry id metadataKey (.container (id + 1)) }

/-- What a component extends. A name without a value only has one when the script runs. -/
def baseOf (look : String → Evaluation Point) (p : Processor) : Evaluation Point :=
  match p.reference? with
  | none => pure (.scalar .null)
  | some name => tryCatch (look name) fun error =>
    if error ≠ .endless then pure (.scalar .undefined) else throw error

theorem lookupWithin_metadata (hknown : e.known.get? name = none)
    (hbinding : e.bindings.get? name = some p.metadata) :
    exec (lookupWithin (depth + 1) name) e =
      match exec (baseOf (lookupWithin depth) p) (opened name p e) with
      | (.ok base, e') =>
        (.ok (.container e.graph.containers.size), closed e.graph.containers.size base e')
      | (.error error, e') => (.error error, { e' with known := e'.known.erase name }) := by
  simp only [Processor.metadata] at hbinding
  simp only [lookupWithin, exec_bind, exec_get, hknown, hbinding]
  simp only [exec_insert, exec_know, fillObject, evalNode, exec_bind, exec_tryCatch, exec_pure,
    exec_setEntry, Processor.property, Script.Key.name, Graph.setEntry_push, Entries.set]
  have hsize : (e.graph.containers.push (.object [outerEntry p])).size =
      e.graph.containers.size + 1 := Array.size_push _
  simp only [outerEntry] at hsize
  simp only [hsize, baseOf, Processor.reference?, opened, outerEntry, innerEntry, closed]
  cases hc : p.component with
  | reference target source foreign =>
      cases foreign with
      | true => simp [evalNode]
      | false =>
          simp only [evalNode, exec_tryCatch]
          rcases exec (lookupWithin depth target) _ with ⟨error | point, e'⟩
          · by_cases hend : error = .endless <;> simp [hend, isCall]
          · rfl
  | tag | function => simp [evalNode]

end CssExtract.Styled
