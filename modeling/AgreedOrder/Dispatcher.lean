/-
  AgreedOrder.Dispatcher

  Routing by path: at most one handler for each key, a later one in place of
  an earlier. The keys are the paths themselves, or the fixed paths of the
  protocol; a path that is no key has no handler.
-/

import AgreedOrder.ControlPath
import AgreedOrder.SortedMap

namespace AgreedOrder

/-- Keys that paths are looked up by. -/
class RouteKey (κ : Type) where
  ofPath? : String → Option κ

instance : RouteKey String := ⟨some⟩

instance : RouteKey ControlPath := ⟨ControlPath.ofText?⟩

/-- Handlers by key. -/
structure Dispatcher (κ η : Type) [Ord κ] where
  handlers : SortedMap κ η

namespace Dispatcher

variable {κ η : Type} [Ord κ]

/-- The dispatcher with no handler. -/
def empty : Dispatcher κ η := ⟨∅⟩

instance : EmptyCollection (Dispatcher κ η) := ⟨empty⟩

/-- Hand what comes for a key to a handler from now on. -/
def bind [Std.TransOrd κ] [Std.LawfulEqOrd κ] (d : Dispatcher κ η) (key : κ) (handler : η) :
    Dispatcher κ η :=
  ⟨d.handlers.insert key handler⟩

/-- The handler for a path. -/
def handler? [RouteKey κ] (d : Dispatcher κ η) (path : String) : Option η :=
  (RouteKey.ofPath? path).bind d.handlers.get?

/-- Whether there is a handler for a path. -/
def isBound [RouteKey κ] (d : Dispatcher κ η) (path : String) : Bool := (d.handler? path).isSome

variable {μ σ : Type} [RouteKey κ]

/-- Hand something to the handler for its path. Tells whether there is one. -/
def route (d : Dispatcher κ (μ → σ → σ)) (path : μ → String) (m : μ) (s : σ) : Bool × σ :=
  match d.handler? (path m) with
  | some handler => (true, handler m s)
  | none => (false, s)

/-- Hand over everything that comes, in order. -/
def routeAll (d : Dispatcher κ (μ → σ → σ)) (path : μ → String) (ms : List μ) (s : σ) : σ :=
  ms.foldl (fun s m => (d.route path m s).2) s

end Dispatcher

end AgreedOrder
