import Reckon.Depth
import Reckon.Proofs.Sequence

/-!
Walks that open and close levels on a gauge themselves, with a record of everything they do to it.
Nobody tells such a walk how many levels are left: it tries to open one and may be refused. `Counts`
says that it comes to the same as a function of the levels left, gives the gauge back as it was, and
does nothing on the way that a gauge does not allow. There is one lemma for every way to build a
walk; what a chain leaves open in between is said by `LeavesOpen`.
-/

namespace Reckon

namespace DepthGauge

/-- The gauge with more levels open. -/
def deeper (g : DepthGauge) (levels : Nat) : DepthGauge := { g with depth := g.depth + levels }

theorem deeper_deeper (g : DepthGauge) (levels more : Nat) :
    (g.deeper levels).deeper more = g.deeper (levels + more) := by
  simp only [deeper, Nat.add_assoc]

theorem enter_eq_ok_iff {g g' : DepthGauge} :
    g.enter = .ok g' ↔ g.depth < g.limit ∧ g' = g.deeper 1 := by
  unfold enter deeper
  split
  next full => simp [Nat.not_lt.2 full]
  next below => simp [Nat.not_le.1 below, eq_comm]

end DepthGauge

/-- What is done to a gauge. A call that returns says which gauge it was given. -/
inductive GaugeMove where
  | opened
  | refused
  | closed
  | returned (called : DepthGauge)
deriving DecidableEq

/-- Something done to a gauge, with the gauge before and after it. -/
structure GaugeEntry where
  move : GaugeMove
  before : DepthGauge
  after : DepthGauge
deriving DecidableEq

/-- Below the limit a level is opened, at the limit it is refused and the gauge left as it is. A
level is closed only where one is open. A call returns at the depth at which it was made. -/
def GaugeEntry.Right (limit : Nat) (entry : GaugeEntry) : Prop :=
  entry.before.limit = limit ∧ entry.after.limit = limit ∧
    entry.before.depth ≤ limit ∧ entry.after.depth ≤ limit ∧
    match entry.move with
    | .opened => entry.before.depth < limit ∧ entry.after.depth = entry.before.depth + 1
    | .refused => entry.before.depth = limit ∧ entry.after = entry.before
    | .closed => 0 < entry.before.depth ∧ entry.after.depth + 1 = entry.before.depth
    | .returned called => entry.before = called ∧ entry.after = entry.before

/-- A gauge together with all that has been done to it, the latest first. -/
structure Meter where
  gauge : DepthGauge
  log : List GaugeEntry
deriving DecidableEq

/-- Something that opens and closes levels on a meter. -/
abbrev Walk (α : Type) := StateM Meter α

namespace Meter

def new (gauge : DepthGauge) : Meter := ⟨gauge, []⟩

/-- The meter after something has been done to the gauge. -/
def noted (m : Meter) (move : GaugeMove) (after : DepthGauge) : Meter :=
  ⟨after, ⟨move, m.gauge, after⟩ :: m.log⟩

def note (move : GaugeMove) (after : DepthGauge) : Walk Unit := modify (·.noted move after)

/-- Opens a level, unless the gauge refuses it. -/
def enter : Walk (Except DepthExceeded Unit) := do
  let gauge := (← get).gauge
  match gauge.enter with
  | .ok opened =>
    note .opened opened
    return .ok ()
  | .error refusal =>
    note .refused gauge
    return .error refusal

def exit : Walk Unit := do
  note .closed (← get).gauge.exit

def exits : Nat → Walk Unit
  | 0 => return ()
  | levels + 1 => do
    exit
    exits levels

section
variable {α β : Type}

/-- The call of a function, whose return is noted. -/
def call (body : Walk α) : Walk α := do
  let called := (← get).gauge
  let answer ← body
  note (.returned called) (← get).gauge
  return answer

/-- Runs `body` one level deeper and closes the level again, whatever `body` comes to. -/
def nested (refusal : DepthExceeded → α) (body : Walk α) : Walk α := call do
  match ← enter with
  | .error refused => return refusal refused
  | .ok () =>
    let answer ← body
    exit
    return answer

/-- Runs `body`, which says how many levels it has left open, and closes them. -/
def settled (body : Walk (α × Nat)) : Walk α := call do
  let (answer, levels) ← body
  exits levels
  return answer

end

/-- Everything done led from the gauge at the start to the gauge there is. -/
def Leads (start : DepthGauge) : List GaugeEntry → DepthGauge → Prop
  | [], gauge => gauge = start
  | entry :: earlier, gauge => entry.after = gauge ∧ Leads start earlier entry.before

/-- Nothing happened to the gauge but what the log says, and all of that was right. -/
structure Sound (start : DepthGauge) (m : Meter) : Prop where
  leads : Leads start m.log m.gauge
  right : ∀ entry ∈ m.log, entry.Right start.limit
  limit_eq : m.gauge.limit = start.limit
  inside : m.gauge.depth ≤ m.gauge.limit

theorem Sound.new {gauge : DepthGauge} (inside : gauge.depth ≤ gauge.limit) :
    Sound gauge (new gauge) where
  leads := rfl
  right := List.forall_mem_nil _
  limit_eq := rfl
  inside := inside

theorem run_enter (m : Meter) :
    enter.run m =
      match m.gauge.enter with
      | .ok opened => (.ok (), m.noted .opened opened)
      | .error refusal => (.error refusal, m.noted .refused m.gauge) := by
  simp only [enter, StateT.run_bind, StateT.run_get, pure_bind]
  cases m.gauge.enter <;> rfl

namespace Sound

variable {start deeper : DepthGauge} {m : Meter} {refusal : DepthExceeded}

theorem noted {move : GaugeMove} {after : DepthGauge} (sound : Sound start m)
    (right : GaugeEntry.Right start.limit ⟨move, m.gauge, after⟩) :
    Sound start (m.noted move after) where
  leads := ⟨rfl, sound.leads⟩
  right := List.forall_mem_cons.2 ⟨right, sound.right⟩
  limit_eq := right.2.1
  inside := right.2.1 ▸ right.2.2.2.1

theorem depth_le (sound : Sound start m) : m.gauge.depth ≤ start.limit :=
  sound.limit_eq ▸ sound.inside

theorem opened (sound : Sound start m) (entered : m.gauge.enter = .ok deeper) :
    Sound start (m.noted .opened deeper) := by
  obtain ⟨below, rfl⟩ := DepthGauge.enter_eq_ok_iff.1 entered
  rw [sound.limit_eq] at below
  exact sound.noted ⟨sound.limit_eq, sound.limit_eq, sound.depth_le, below, below, rfl⟩

theorem refused (sound : Sound start m) (entered : m.gauge.enter = .error refusal) :
    Sound start (m.noted .refused m.gauge) := by
  obtain rfl := DepthGauge.limit_of_refused entered
  have full : m.gauge.depth = start.limit := by
    have none := DepthGauge.enter_eq_error_iff.1 entered
    have inside := sound.inside
    have same := sound.limit_eq
    rw [DepthGauge.room] at none
    omega
  exact sound.noted
    ⟨sound.limit_eq, sound.limit_eq, sound.depth_le, sound.depth_le, full, rfl⟩

theorem closed (sound : Sound start m) (some : 0 < m.gauge.depth) :
    Sound start (m.noted .closed m.gauge.exit) :=
  sound.noted ⟨sound.limit_eq, sound.limit_eq, sound.depth_le,
    Nat.le_trans (Nat.sub_le ..) sound.depth_le, some, Nat.sub_add_cancel some⟩

theorem returned (sound : Sound start m) : Sound start (m.noted (.returned m.gauge) m.gauge) :=
  sound.noted ⟨sound.limit_eq, sound.limit_eq, sound.depth_le, sound.depth_le, rfl, rfl⟩

end Sound

section
variable {α β ε : Type} {start : DepthGauge}

/-- On every sound meter the walk comes to what `y` says for the levels left, and gives the gauge
back as it was. -/
def Counts (start : DepthGauge) (x : Walk α) (y : (room : Nat) → α) : Prop :=
  ∀ m, Sound start m →
    ∃ left, x.run m = (y m.gauge.room, left) ∧ left.gauge = m.gauge ∧ Sound start left

/-- On this meter the walk comes to `a`, and adds to the number it was given the levels that it
leaves open. -/
def LeavesOpen (start : DepthGauge) (given : Nat) (m : Meter) (x : Walk (α × Nat)) (a : α) : Prop :=
  ∃ levels left, x.run m = ((a, given + levels), left) ∧ left.gauge = m.gauge.deeper levels ∧
    Sound start left

/-- The gauge is again what it was at the start, and nothing was done to it that was not right. -/
structure Balanced (start : DepthGauge) (m : Meter) : Prop where
  gauge_eq : m.gauge = start
  leads : Leads start m.log start
  right : ∀ entry ∈ m.log, entry.Right start.limit

theorem Balanced.new (gauge : DepthGauge) : Balanced gauge (new gauge) :=
  ⟨rfl, rfl, List.forall_mem_nil _⟩

namespace LeavesOpen

variable {given : Nat} {m mid : Meter} {a : α} {b : β}
  {f : Except DepthExceeded Unit → Walk (α × Nat)}

theorem done (sound : Sound start m) : LeavesOpen start given m (pure (a, given)) a :=
  ⟨0, m, rfl, rfl, sound⟩

theorem bind {x : Walk β} {f : β → Walk (α × Nat)} (ran : x.run m = (b, mid))
    (same : mid.gauge = m.gauge) (next : LeavesOpen start given mid (f b) a) :
    LeavesOpen start given m (x >>= f) a := by
  rw [LeavesOpen, StateT.run_bind, ran, ← same]
  exact next

theorem refused (sound : Sound start m) (full : m.gauge.room = 0)
    (next : ∀ left, Sound start left →
      LeavesOpen start given left (f (.error ⟨left.gauge.limit⟩)) a) :
    LeavesOpen start given m (enter >>= f) a := by
  have refused := DepthGauge.enter_eq_error_iff.2 full
  have ran : enter.run m = (.error ⟨m.gauge.limit⟩, m.noted .refused m.gauge) := by
    rw [run_enter, refused]
  exact bind ran rfl (next _ (sound.refused refused))

/-- A level that is opened is counted. -/
theorem opened (sound : Sound start m) {room : Nat} (left : m.gauge.room = room + 1)
    (next : ∀ inner, Sound start inner → inner.gauge.room = room →
      LeavesOpen start (given + 1) inner (f (.ok ())) a) :
    LeavesOpen start given m (enter >>= f) a := by
  have entered : m.gauge.enter = .ok (m.gauge.deeper 1) := by
    refine DepthGauge.enter_eq_ok_iff.2 ⟨?_, rfl⟩
    rw [DepthGauge.room] at left
    omega
  have below : (m.gauge.deeper 1).room = room :=
    Nat.succ.inj ((DepthGauge.room_of_enter entered).symm.trans left)
  obtain ⟨levels, after, ran, deep, sound⟩ := next _ (sound.opened entered) below
  refine ⟨levels + 1, after, ?_, ?_, sound⟩
  · rw [StateT.run_bind, run_enter, entered, Nat.add_comm levels, ← Nat.add_assoc]
    exact ran
  · rw [deep, noted, DepthGauge.deeper_deeper, Nat.add_comm]

end LeavesOpen

/-- As many levels are closed as are open beyond the gauge. -/
theorem run_exits {levels : Nat} {m : Meter} {gauge : DepthGauge} (sound : Sound start m)
    (deep : m.gauge = gauge.deeper levels) :
    ∃ left, (exits levels).run m = ((), left) ∧ left.gauge = gauge ∧ Sound start left := by
  induction levels generalizing m with
  | zero => exact ⟨m, rfl, deep, sound⟩
  | succ levels ih =>
    have some : 0 < m.gauge.depth := deep ▸ Nat.succ_pos _
    exact ih (m := m.noted .closed m.gauge.exit) (sound.closed some) (deep ▸ rfl)

namespace Counts

theorem pure (a : α) : Counts start (Pure.pure a) fun _ => a :=
  fun m sound => ⟨m, rfl, rfl, sound⟩

/-- A walk that begins on a new meter. -/
theorem balanced {x : Walk α} {y : Nat → α} (counts : Counts start x y)
    (inside : start.depth ≤ start.limit) :
    ∃ left, x.run (new start) = (y start.room, left) ∧ left.Balanced start := by
  obtain ⟨left, ran, same, sound⟩ := counts _ (.new inside)
  have same : left.gauge = start := same
  exact ⟨left, ran, same, same ▸ sound.leads, sound.right⟩

/-- The second part finds the gauge as the first one found it. -/
theorem bind {x : Walk α} {f : α → Walk β} {y : Nat → α} {g : Nat → α → β}
    (first : Counts start x y) (next : ∀ a, Counts start (f a) fun room => g room a) :
    Counts start (x >>= f) fun room => g room (y room) := by
  intro m sound
  obtain ⟨mid, ran, same, sound⟩ := first m sound
  obtain ⟨left, ran', same', sound'⟩ := next (y m.gauge.room) mid sound
  refine ⟨left, ?_, same'.trans same, sound'⟩
  rw [StateT.run_bind, ran]
  exact same ▸ ran'

theorem call {x : Walk α} {y : Nat → α} (body : Counts start x y) :
    Counts start (Meter.call x) y := by
  intro m sound
  obtain ⟨left, ran, same, sound⟩ := body m sound
  refine ⟨left.noted (.returned m.gauge) left.gauge, ?_, same, same ▸ sound.returned⟩
  rw [Meter.call, StateT.run_bind, StateT.run_get, pure_bind, StateT.run_bind, ran]
  rfl

/-- The levels that are open at the end are closed. -/
theorem settled {x : Walk (α × Nat)} {y : Nat → α}
    (body : ∀ m, Sound start m → LeavesOpen start 0 m x (y m.gauge.room)) :
    Counts start (Meter.settled x) y := by
  refine call fun m sound => ?_
  obtain ⟨levels, mid, ran, deep, sound⟩ := body m sound
  rw [Nat.zero_add] at ran
  obtain ⟨left, closed, same, sound⟩ := run_exits sound deep
  refine ⟨left, ?_, same, sound⟩
  rw [StateT.run_bind, ran]
  change (exits levels >>= _).run mid = _
  rw [StateT.run_bind, closed]
  rfl

/-- A level is opened if one is left, and it is closed at the end. -/
theorem nested {refusal : DepthExceeded → α} {x : Walk α} {y : Nat → α}
    (none : y 0 = refusal ⟨start.limit⟩) (body : Counts start x fun room => y (room + 1)) :
    Counts start (Meter.nested refusal x) y := by
  refine call fun m sound => ?_
  rw [StateT.run_bind, run_enter]
  cases entered : m.gauge.enter with
  | error refused =>
    refine ⟨m.noted .refused m.gauge, ?_, rfl, sound.refused entered⟩
    obtain rfl := DepthGauge.limit_of_refused entered
    rw [DepthGauge.enter_eq_error_iff.1 entered, none, sound.limit_eq]
    rfl
  | ok opened =>
    obtain ⟨mid, ran, same, sound⟩ := body _ (sound.opened entered)
    obtain ⟨-, rfl⟩ := DepthGauge.enter_eq_ok_iff.1 entered
    have some : 0 < mid.gauge.depth := same ▸ Nat.succ_pos _
    refine ⟨mid.noted .closed mid.gauge.exit, ?_, same ▸ rfl, sound.closed some⟩
    rw [DepthGauge.room_of_enter entered]
    change (x >>= _).run _ = _
    rw [StateT.run_bind, ran]
    rfl

/-- A step after a failure is not taken. -/
theorem bindOk {x : ExceptT ε Walk α} {f : α → ExceptT ε Walk β} {y : Nat → Except ε α}
    {g : Nat → α → Except ε β} (first : Counts start x.run y)
    (next : ∀ a, Counts start (f a).run fun room => g room a) :
    Counts start (x >>= f).run fun room => y room >>= g room := by
  rw [ExceptT.run_bind]
  refine bind (g := fun room answer => answer >>= g room) first fun answer => ?_
  cases answer with
  | ok a => exact next a
  | error e => exact .pure _

theorem liftExcept (x : Except ε α) :
    Counts start (liftExcept x : ExceptT ε Walk α).run fun _ => x := by
  cases x <;> exact .pure _

end Counts

end
end Meter
end Reckon
