/-!
Nesting limits. A gauge counts the levels that are open and refuses to open one beyond its limit.
The walks of this library carry only the levels they have left (`room`); the gauge is the same
count seen from outside, as a value that is entered and left.
-/

namespace Reckon

/-- The nesting limit where none is given. -/
def defaultLimit : Nat := 10000

/-- No further level may be opened under this limit. -/
structure DepthExceeded where
  limit : Nat
deriving DecidableEq

def DepthExceeded.message (e : DepthExceeded) : String :=
  "nesting depth exceeds the limit of " ++ toString e.limit

/-- The levels open at the moment and how many there may be. -/
structure DepthGauge where
  depth : Nat := 0
  limit : Nat := defaultLimit
deriving DecidableEq

namespace DepthGauge

def new (limit : Nat) : DepthGauge := ⟨0, limit⟩

/-- Opens one level; a refused one is not counted. -/
def enter (g : DepthGauge) : Except DepthExceeded DepthGauge :=
  if g.limit ≤ g.depth then .error ⟨g.limit⟩ else .ok { g with depth := g.depth + 1 }

/-- Closes one level. -/
def exit (g : DepthGauge) : DepthGauge := { g with depth := g.depth - 1 }

/-- The levels that can still be opened. -/
def room (g : DepthGauge) : Nat := g.limit - g.depth

theorem exit_of_enter {g g' : DepthGauge} (h : g.enter = .ok g') : g'.exit = g := by
  unfold enter at h
  split at h
  · cases h
  · cases h
    simp [exit]

theorem enter_eq_error_iff {g : DepthGauge} : g.enter = .error ⟨g.limit⟩ ↔ g.room = 0 := by
  unfold enter room
  split <;> simp <;> omega

theorem room_of_enter {g g' : DepthGauge} (h : g.enter = .ok g') : g.room = g'.room + 1 := by
  unfold enter at h
  split at h
  · cases h
  · cases h
    simp only [room]
    omega

theorem limit_of_enter {g g' : DepthGauge} (h : g.enter = .ok g') : g'.limit = g.limit := by
  unfold enter at h
  split at h
  · cases h
  · cases h
    rfl

theorem limit_of_refused {g : DepthGauge} {e : DepthExceeded} (h : g.enter = .error e) :
    e = ⟨g.limit⟩ := by
  unfold enter at h
  split at h
  · cases h
    rfl
  · cases h

end DepthGauge

end Reckon
