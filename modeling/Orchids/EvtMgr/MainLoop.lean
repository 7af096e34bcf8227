import Mathlib.Tactic.Common
import Mathlib.Data.List.Basic

/-!
# The main loop (`evt_mgr.c`)

`register_rtaction`, `get_next_rtaction` and `event_dispatcher_main_loop` as a step function. What
the world does is in the events: the time that `gettimeofday` returns, how `select` returns, and what
the callbacks of actions and of inputs register. An object is registered only when it is not in the
list, as all callers do; so each registration is an action of its own.

The local variable `cur_time` and `ctx->cur_loop_time` are set together.
-/

namespace Orchids

/-! ## Dates -/

/-- `struct timeval` -/
structure Date where
  sec : Int
  usec : Int
  usec_nonneg : 0 ≤ usec
  usec_lt : usec < 1000000
  deriving DecidableEq

namespace Date

/-- The date in microseconds. -/
def micros (d : Date) : Int := d.sec * 1000000 + d.usec

/-- `timercmp` -/
def timercmp (cmp : Int → Int → Bool) (a b : Date) : Bool :=
  if a.sec = b.sec then cmp a.usec b.usec else cmp a.sec b.sec

/-- `timercmp(a, b, <)` -/
def lt (a b : Date) : Bool := timercmp (fun x y => decide (x < y)) a b

/-- `timercmp(a, b, >)` -/
def gt (a b : Date) : Bool := timercmp (fun x y => decide (x > y)) a b

/-- `timercmp(a, b, <=)` -/
def le (a b : Date) : Bool := timercmp (fun x y => decide (x ≤ y)) a b

/-- `Timer_Sub` -/
def timerSub (a b : Date) : Date :=
  if h : a.usec < b.usec then
    { usec := 1000000 + a.usec - b.usec
      sec := a.sec - b.sec - 1
      usec_nonneg := by have := b.usec_lt; have := a.usec_nonneg; omega
      usec_lt := by omega }
  else
    { usec := a.usec - b.usec
      sec := a.sec - b.sec
      usec_nonneg := by omega
      usec_lt := by have := a.usec_lt; have := b.usec_nonneg; omega }

/-- `date.tv_sec += delay` -/
def addDelay (d : Date) (delay : Int) : Date := { d with sec := d.sec + delay }

end Date

/-! ## Actions -/

/-- `rtaction_t`; what its callback does is in the events. -/
structure RtAction where
  id : Nat
  date : Date
  deriving DecidableEq

/-- `register_rtaction`: before the first later action, or at the end; but before the last action
where it is not later than that one. -/
def registerRtaction (e : RtAction) : List RtAction → List RtAction
  | [] => [e]
  | event :: rest =>
    if e.date.lt event.date || rest.isEmpty then
      if rest.isEmpty && e.date.gt event.date then [event, e] else e :: event :: rest
    else event :: registerRtaction e rest

/-- What a callback registers. -/
inductive Registration where
  /-- `register_rtcallback(ctx, cb, data, delay)` -/
  | rtcallback (delay : Int)
  /-- `register_rtaction(ctx, e)` -/
  | rtaction (date : Date)
  deriving DecidableEq

/-- The date of the registered action. -/
def Registration.date (curLoopTime : Date) : Registration → Date
  | rtcallback delay => curLoopTime.addDelay delay
  | rtaction date => date

/-! ## The loop -/

/-- Where the loop is: at the start of its body, in the loop over past actions, in `select`, in the
loop after a timeout. -/
inductive Pc where
  | top
  | consume
  | select (waitTime : Option Date)
  | fire
  deriving DecidableEq

/-- A call of an action, with what was registered and not called then. -/
structure RtCall where
  action : RtAction
  others : List RtAction

/-- `rtactionlist`, the local variable `e` and the time; also all registrations and calls so far. -/
structure EvtLoop where
  rtactionlist : List RtAction
  e : Option RtAction
  curLoopTime : Date
  pc : Pc
  registered : List RtAction
  calls : List RtCall

namespace EvtLoop

/-- A registration: the action gets its place in the list. -/
def register (s : EvtLoop) (r : Registration) : EvtLoop :=
  let e := { id := s.registered.length, date := r.date s.curLoopTime }
  { s with
    rtactionlist := registerRtaction e s.rtactionlist
    registered := s.registered ++ [e] }

def registerAll (s : EvtLoop) (rs : List Registration) : EvtLoop := rs.foldl register s

/-- `e = get_next_rtaction(ctx)` -/
def getNextRtaction (s : EvtLoop) : EvtLoop :=
  { s with e := s.rtactionlist.head?, rtactionlist := s.rtactionlist.tail }

/-- `e && timercmp( &e->date, &cur_time, <= )` -/
def due (s : EvtLoop) : Bool :=
  match s.e with
  | none => false
  | some a => a.date.le s.curLoopTime

/-- `e->cb(ctx, e)`, with what it registers, and the next action. -/
def call (s : EvtLoop) (a : RtAction) (rs : List Registration) : EvtLoop :=
  let s' : EvtLoop := { s with calls := s.calls ++ [{ action := a, others := s.rtactionlist }] }
  (s'.registerAll rs).getNextRtaction

end EvtLoop

/-- What the world does. -/
inductive LoopEvent where
  /-- The time at the start of the body. -/
  | gettimeofday (t : Date)
  /-- The callback of an action runs. -/
  | callback (rs : List Registration)
  /-- The call of `select`. -/
  | sleep
  /-- `select` returns with inputs (or an error), and their callbacks run. -/
  | input (rs : List Registration)
  /-- `select` returns with its timeout. -/
  | timeout (t : Date)
  deriving DecidableEq

namespace EvtLoop

/-- The step of the loop, where it takes this event. -/
def step (s : EvtLoop) : LoopEvent → Option EvtLoop
  | .gettimeofday t =>
    match s.pc with
    | .top => some { s with curLoopTime := t, pc := .consume }
    | _ => none
  | .callback rs =>
    match s.pc, s.e with
    | .consume, some a => if s.due then some (s.call a rs) else none
    | .fire, some a =>
      let s' := s.call a rs
      some { s' with pc := if s'.due then .fire else .top }
    | _, _ => none
  | .sleep =>
    match s.pc with
    | .consume =>
      if s.due then none
      else some { s with pc := .select (s.e.map fun a => a.date.timerSub s.curLoopTime) }
    | _ => none
  | .input rs =>
    match s.pc with
    | .select _ => some { s.registerAll rs with pc := .top }
    | _ => none
  | .timeout t =>
    match s.pc with
    | .select (some _) => some { s with curLoopTime := t, pc := .fire }
    | _ => none

/-- The loop is entered with what was registered at start-up. -/
def start (t : Date) (rs : List Registration) : EvtLoop :=
  let s : EvtLoop :=
    { rtactionlist := [], e := none, curLoopTime := t, pc := .top, registered := [], calls := [] }
  (s.registerAll rs).getNextRtaction

/-- A run, with the states and the events that they take. -/
inductive Run : EvtLoop → List (EvtLoop × LoopEvent) → EvtLoop → Prop
  | nil (s : EvtLoop) : Run s [] s
  | cons {s s' s'' : EvtLoop} {ev : LoopEvent} {tr : List (EvtLoop × LoopEvent)} :
      s.step ev = some s' → Run s' tr s'' → Run s ((s, ev) :: tr) s''

end EvtLoop

end Orchids
