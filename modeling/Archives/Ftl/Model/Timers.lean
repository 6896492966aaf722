import Archives.Common.Except
import Archives.Common.Machine
import Archives.Common.SortedMap
import Archives.Ftl.Model.Kernel
/-!
# FTL — timers

`kernel/src/timer.rs` and `kernel/src/arch/riscv64/{timer,trap}.rs`:
`TIMERS`, ordered by deadline, the state of each timer, and the deadline
the hardware is armed with. A timer is known by its address. Instants
are nanoseconds, and the hardware counts ticks of `multiplier`
nanoseconds each. Of a timer's emitter the readiness is kept.
-/

namespace Archives.Ftl

inductive TimerState
  | inActive
  | active (deadline : Nat)
  deriving DecidableEq, Repr

structure Timer where
  state : TimerState
  emitter : Readiness
  deriving DecidableEq

/-- `TIMERS`, all timers, and the hardware. -/
structure Timers where
  timers : SortedMap Nat (List Addr)
  cells : Addr → Timer
  multiplier : Nat
  /-- `CURRNET_DEADLINE_TICKS`. -/
  current : Option Nat
  /-- What the hardware was armed with last. -/
  armed : Nat
  /-- The last tick an interrupt was taken at. -/
  clock : Nat

namespace Timers

/-- The start, with the frequency set. -/
def boot (multiplier : Nat) : Timers where
  timers := .empty
  cells := fun _ => ⟨.inActive, 0⟩
  multiplier := multiplier
  current := none
  armed := 0xffffffffffffffff
  clock := 0

variable (ts : Timers)

def setTimer (deadline : Nat) : Except Stop Timers :=
  -- deadline.as_raw() / multiplier
  if ts.multiplier = 0 then .error .panic
  else if ts.current.any fun current => current ≤ deadline / ts.multiplier then .ok ts
  else .ok { ts with
    armed := deadline / ts.multiplier
    current := some (deadline / ts.multiplier) }

def acknowledgeTimer : Timers :=
  { ts with armed := 0xffffffffffffffff, current := none }

/-- `arch::read_monotonic_time`, at a tick. -/
def readMonotonicTime (ticks : Nat) : Except Stop Nat :=
  if ts.multiplier = 0 then .error .panic
  else if 18446744073709551616 ≤ ticks * ts.multiplier then .error .panic
  else .ok (ticks * ts.multiplier)

/-- The first half of `Timer::set`: the timer is taken out of `TIMERS`,
if it is active. -/
def remove (timers : SortedMap Nat (List Addr)) (timer : Addr) :
    TimerState → Except Stop (SortedMap Nat (List Addr))
  | .inActive => .ok timers
  | .active deadline =>
    match timers.get? deadline with
    -- the `unwrap`
    | none => .error .panic
    | some items =>
      if items.filter (fun item => item ≠ timer) = [] then .ok (timers.erase deadline)
      else .ok (timers.insert deadline (items.filter fun item => item ≠ timer))

/-- `timers.entry(deadline).or_default().push(self)`. -/
def push (timers : SortedMap Nat (List Addr)) (deadline : Nat) (timer : Addr) :
    SortedMap Nat (List Addr) :=
  timers.insert deadline ((timers.get? deadline).getD [] ++ [timer])

def set (timer : Addr) (deadline : Nat) : Except Stop Timers := do
  let timers ← remove ts.timers timer (ts.cells timer).state
  setTimer { ts with
    timers := push timers deadline timer
    cells := Function.update ts.cells timer
      ⟨.active deadline, (ts.cells timer).emitter &&& ~~~ Readiness.readable⟩ } deadline

/-- `Timer::fire`. Its debug assertion is kept, as one more way to panic;
it never fails. -/
def fire (cells : Addr → Timer) (timer : Addr) : Except Stop (Addr → Timer) :=
  match (cells timer).state with
  | .inActive => .error .panic
  | .active _ =>
    .ok (Function.update cells timer
      ⟨.inActive, (cells timer).emitter ||| Readiness.readable⟩)

/-- The inner loop of `fire_expired_timers`. -/
def fireAll : List Addr → (Addr → Timer) → Except Stop (Addr → Timer)
  | [], cells => .ok cells
  | timer :: rest, cells => do
    let cells ← fire cells timer
    fireAll rest cells

/-- What the loop of `fire_expired_timers` leaves: the entries of
`TIMERS`, the timers, and those that were fired. -/
structure Expired where
  entries : List (Nat × List Addr)
  cells : Addr → Timer
  fired : List Addr

/-- The loop of `fire_expired_timers`: the first entry is popped as long
as it is due. -/
def fireEntries (now : Nat) : List (Nat × List Addr) → (Addr → Timer) → List Addr →
    Except Stop Expired
  | [], cells, fired => .ok ⟨[], cells, fired⟩
  | (deadline, items) :: rest, cells, fired =>
    if now < deadline then .ok ⟨(deadline, items) :: rest, cells, fired⟩
    else do
      let cells ← fireAll items cells
      fireEntries now rest cells (fired ++ items)

/-- What is left of the entries is what was there, without the first
ones; so it is sorted. -/
theorem sorted_of_fireEntries {now : Nat} {entries : List (Nat × List Addr)}
    {cells : Addr → Timer} {fired : List Addr} {left : Expired}
    (hsorted : entries.Pairwise fun a b => a.1 < b.1)
    (h : fireEntries now entries cells fired = .ok left) :
    left.entries.Pairwise fun a b => a.1 < b.1 := by
  induction entries generalizing cells fired with
  | nil =>
    cases h
    exact .nil
  | cons e rest ih =>
    simp only [fireEntries, ite_eq_ok, bind_eq_ok] at h
    rcases h with ⟨-, h⟩ | ⟨-, cells', -, h⟩
    · cases h
      exact hsorted
    · exact ih hsorted.of_cons h

/-- `fire_expired_timers`: the timers after it, those that were fired,
and the next deadline. -/
def fireExpiredTimers (now : Nat) : Except Stop (Timers × List Addr × Option Nat) :=
  match h : fireEntries now ts.timers.entries ts.cells [] with
  | .error stop => .error stop
  | .ok left =>
    .ok ({ ts with
      timers := ⟨left.entries, sorted_of_fireEntries ts.timers.sorted h⟩
      cells := left.cells }, left.fired, left.entries.head?.map Prod.fst)

/-- The timer interrupt of `handle_trap`, taken at a tick, and which
timers it fired. -/
def interrupt (ticks : Nat) : Except Stop (Timers × List Addr) := do
  let now ← ts.readMonotonicTime ticks
  let (ts, fired, next) ← ts.acknowledgeTimer.fireExpiredTimers now
  let ts ← next.elim (.ok ts) ts.setTimer
  pure ({ ts with clock := ticks }, fired)

/-- What happens: `Timer::set`, and interrupts. -/
inductive Op
  | set (timer : Addr) (deadline : Nat)
  | interrupt (ticks : Nat)

/-- What an operation does. Time does not go back; nothing follows a
panic. -/
def step : Op → Option Timers
  | .set timer deadline => (ts.set timer deadline).toOption
  | .interrupt ticks =>
    if ts.clock ≤ ticks then (ts.interrupt ticks).toOption.map Prod.fst else none

/-- The timers and what happens to them, in any order. -/
def machine : Machine Timers Op := ⟨step⟩

/-! ## What timers should do -/

/-- **The timers agree.** An active timer occurs in `TIMERS` once, under
its own deadline, and no timer occurs elsewhere; and the hardware is
armed no later than the tick of any deadline. -/
structure Consistent (ts : Timers) : Prop where
  active : ∀ timer deadline, (ts.cells timer).state = .active deadline →
    ∃ items, (deadline, items) ∈ ts.timers.entries ∧ items.count timer = 1
  elsewhere : ∀ timer deadline items, (deadline, items) ∈ ts.timers.entries →
    (ts.cells timer).state ≠ .active deadline → timer ∉ items
  armed : ∀ timer deadline, (ts.cells timer).state = .active deadline →
    ts.armed ≤ deadline / ts.multiplier

/-- **An interrupt fires what is due**: the active timers with a deadline
at or before now, each once, and nothing happens to the others. -/
structure FiresDue (ts ts' : Timers) (now : Nat) (fired : List Addr) : Prop where
  once : fired.Nodup
  due : ∀ timer, timer ∈ fired ↔
    ∃ deadline, (ts.cells timer).state = .active deadline ∧ deadline ≤ now
  cells : ∀ timer, ts'.cells timer =
    if timer ∈ fired then ⟨.inActive, (ts.cells timer).emitter ||| Readiness.readable⟩
    else ts.cells timer

end Timers

end Archives.Ftl
