import CssExtract.Styled.Reference
import CssExtract.Eval.Evaluator

namespace CssExtract

variable {ε σ α β : Type}

/-- The result of a computation and the state after it. -/
def exec (x : ExceptT ε (StateM σ) α) (s : σ) : Except ε α × σ := x.run.run s

variable {x : ExceptT ε (StateM σ) α} {s : σ}

@[simp] theorem exec_pure (a : α) : exec (pure a : ExceptT ε (StateM σ) α) s = (.ok a, s) := rfl

@[simp] theorem exec_throw (error : ε) :
    exec (throw error : ExceptT ε (StateM σ) α) s = (.error error, s) := rfl

@[simp] theorem exec_get : exec (get : ExceptT ε (StateM σ) σ) s = (.ok s, s) := rfl

@[simp] theorem exec_modify (f : σ → σ) :
    exec (modify f : ExceptT ε (StateM σ) PUnit) s = (.ok ⟨⟩, f s) := rfl

theorem exec_bind (f : α → ExceptT ε (StateM σ) β) :
    exec (x >>= f) s = match exec x s with
      | (.ok a, s') => exec (f a) s'
      | (.error error, s') => (.error error, s') := by
  show (ExceptT.bind x f).run.run s = _
  simp only [ExceptT.bind, ExceptT.run, ExceptT.mk, exec, StateT.run_bind]
  rcases StateT.run x s with ⟨_ | _, _⟩ <;> rfl

theorem exec_bind_fst_of_error {f : α → ExceptT ε (StateM σ) β} {error : ε} (h : (exec x s).1 = .error error) :
    (exec (x >>= f) s).1 = .error error := by
  rw [exec_bind]
  generalize exec x s = out at h
  obtain ⟨result, s'⟩ := out
  obtain rfl : result = .error error := h
  rfl

theorem exec_tryCatch (handler : ε → ExceptT ε (StateM σ) α) :
    exec (tryCatch x handler) s = match exec x s with
      | (.ok a, s') => (.ok a, s')
      | (.error error, s') => exec (handler error) s' := by
  show (ExceptT.tryCatch x handler).run.run s = _
  simp only [ExceptT.tryCatch, ExceptT.run, ExceptT.mk, exec, StateT.run_bind]
  rcases StateT.run x s with ⟨_ | _, _⟩ <;> rfl

namespace Eval

open Evaluator

variable {e : Evaluator}

@[simp] theorem exec_insert (c : Container) :
    exec (insert c) e =
      (.ok (.container e.graph.containers.size), { e with graph := ⟨e.graph.containers.push c⟩ }) :=
  rfl

@[simp] theorem exec_know (name : String) (point : Point) :
    exec (know name point) e = (.ok (), { e with known := e.known.set name point }) := rfl

@[simp] theorem exec_forget (name : String) :
    exec (forget name) e = (.ok (), { e with known := e.known.erase name }) := rfl

@[simp] theorem exec_setEntry (id : Nat) (key : String) (value : Point) :
    exec (setEntry (.container id) key value) e =
      (.ok (), { e with graph := e.graph.setEntry id key value }) := rfl

end Eval

namespace Styled

@[simp] theorem exec_warn (w : Warning) (ws : List Warning) :
    exec (warn w) ws = (.ok (), ws ++ [w]) := rfl

theorem exec_liftResolution {r : Except Package.ResolutionError α} {ws : List Warning} :
    exec (liftResolution r) ws = (r.mapError .ofResolution, ws) := by
  cases r <;> rfl

end Styled

end CssExtract
