import Mathlib.Data.Stream.Defs
import Netty.Poll.Basic
import Netty.Spec.Bytes

/-!
# HTTP/2 pings

`src/proto/http2/ping.rs`, and how `Conn::poll` of `src/proto/http2/client.rs` uses it.
Times are numbers of nanoseconds. What a program cannot choose is a stream of answers:
how far the clock has gone when it is read again, whether a PING can be sent, and what
comes back. The estimate of the bandwidth is a parameter (`Sampler`) of the timer, to
which only matters when the next sample may begin. In `Bdp` the comparison of bandwidths,
which is in floating point, is an answer too.

* `KeepAlive`: the timer of the keep-alive PING and its three states.
* `Bdp`: the window and the delay between the samples.
* `Ponger`: the state behind the lock with what the connection keeps of it.
* `Ponger.step`: reads, pongs, data and keep-alive polls, in any order.
-/

namespace Netty

namespace Ping

/-! ## The timer -/

/-- A clock that goes on between its readings. -/
structure Clock where
  now : ℕ
  gaps : Stream' ℕ

def Clock.read (k : Clock) : ℕ × Clock :=
  let t := k.now + k.gaps.head
  (t, ⟨t, k.gaps.tail⟩)

/-- `PingPong::poll_pong`. -/
inductive PongEv where
  | ok | err | pending
  deriving DecidableEq, Repr

/-- What happened and when. No program reads it. -/
inductive Ev where
  | read (t : ℕ)
  /-- A keep-alive PING was attempted, and whether the connection was idle. -/
  | ping (t : ℕ) (idle : Bool)
  | timedOut (t : ℕ)
  deriving DecidableEq, Repr

/-! ## State -/

structure Shared where
  pingSentAt : Option ℕ
  bytes : Option ℕ
  nextBdpAt : Option ℕ
  lastReadAt : Option ℕ
  isKeepAliveTimedOut : Bool

inductive KeepAliveState where
  | init
  | scheduled (due : ℕ)
  | pingSent (deadline : ℕ)
  deriving DecidableEq, Repr

structure KeepAlive where
  interval : ℕ
  timeout : ℕ
  whileIdle : Bool
  state : KeepAliveState
  /-- The sleep is ready when its deadline has passed. -/
  sleep : ℕ

/-- The part of `Bdp` that is not about time. -/
structure Sampler (B : Type) where
  calculate : B → ℕ → ℕ → Option ℕ × B
  pingDelay : B → ℕ

/-- The samples in a row, with the windows that come of them. -/
def Sampler.run {B : Type} (s : Sampler B) (b : B) : List (ℕ × ℕ) → List ℕ × B
  | [] => ([], b)
  | (bytes, rtt) :: samples =>
    let (window, b) := s.calculate b bytes rtt
    let (windows, b) := s.run b samples
    (window.toList ++ windows, b)

structure Bdp where
  bdp : ℕ
  pingDelay : ℕ
  stableCount : ℕ
  deriving DecidableEq, Repr

namespace Bdp

def limit : ℕ := 1024 * 1024 * 16

/-- As `ping::channel` makes it, with the default window. -/
def initial : Bdp := ⟨65535, 100000000, 0⟩

def stabilizeDelay (b : Bdp) : Bdp :=
  if b.pingDelay < 10000000000 then
    if 2 ≤ b.stableCount + 1 then { b with pingDelay := b.pingDelay * 4, stableCount := 0 }
    else { b with stableCount := b.stableCount + 1 }
  else b

/-- `slower`: this bandwidth is below the greatest one so far. -/
def calculate (b : Bdp) (bytes rtt : ℕ) (slower : Bool) : Option ℕ × Bdp :=
  if b.bdp = limit then (none, b.stabilizeDelay)
  else if rtt = 0 then (none, b.stabilizeDelay)
  else if slower then (none, b.stabilizeDelay)
  else if b.bdp * 2 / 3 ≤ bytes then
    let bdp := min (min (bytes * 2) usizeMax) limit
    (some bdp, ⟨bdp, b.pingDelay / 2, 0⟩)
  else (none, b.stabilizeDelay)

/-- The estimator, with the answers of its comparisons. -/
def sampler : Sampler (Bdp × Stream' Bool) where
  calculate b bytes rtt :=
    let (window, bdp) := b.1.calculate bytes rtt b.2.head
    (window, bdp, b.2.tail)
  pingDelay b := b.1.pingDelay

end Bdp

structure Ponger (B : Type) where
  sampler : Sampler B
  bdp : Option B
  keepAlive : Option KeepAlive
  shared : Shared
  clock : Clock
  /-- Whether the next PINGs can be sent. -/
  sends : Stream' Bool
  pongs : Stream' PongEv
  /-- Whether something else records a read before the next round of the timeout loop. -/
  others : Stream' Bool
  /-- An `expect` has failed. -/
  panicked : Bool
  log : List Ev

structure Config where
  /-- `bdp_initial_window`, as the state of the sampler. -/
  bdp : Bool
  keepAliveInterval : Option ℕ
  keepAliveTimeout : ℕ
  keepAliveWhileIdle : Bool

namespace Ponger

variable {B : Type}

/-- `ping::channel`. -/
def channel (cfg : Config) (sampler : Sampler B) (bdp : B) (clock : Clock) (sends : Stream' Bool)
    (pongs : Stream' PongEv) (others : Stream' Bool) : Ponger B :=
  let (now, clock) := clock.read
  { sampler := sampler
    bdp := if cfg.bdp then some bdp else none
    keepAlive := cfg.keepAliveInterval.map fun interval =>
      ⟨interval, cfg.keepAliveTimeout, cfg.keepAliveWhileIdle, .init, now + interval⟩
    shared :=
      { pingSentAt := none
        bytes := if cfg.bdp then some 0 else none
        nextBdpAt := if cfg.bdp then some now else none
        lastReadAt := cfg.keepAliveInterval.map fun _ => now
        isKeepAliveTimedOut := false }
    clock := clock
    sends := sends
    pongs := pongs
    others := others
    panicked := false
    log := [] }

def note (p : Ponger B) (e : Ev) : Ponger B := { p with log := e :: p.log }

def now (p : Ponger B) : ℕ × Ponger B :=
  let (t, clock) := p.clock.read
  (t, { p with clock := clock })

/-! ## `Shared` -/

def isPingSent (p : Ponger B) : Bool := p.shared.pingSentAt.isSome

def sendPing (p : Ponger B) : Ponger B :=
  let p' := { p with sends := p.sends.tail }
  if p.sends.head then
    let (t, p') := p'.now
    { p' with shared := { p'.shared with pingSentAt := some t } }
  else p'

def updateLastReadAt (p : Ponger B) : Ponger B :=
  match p.shared.lastReadAt with
  | some _ =>
    let (t, p) := p.now
    { p with shared := { p.shared with lastReadAt := some t } }
  | none => p

/-- Something has been read by now. -/
def noteRead (p : Ponger B) : Ponger B := p.note (.read p.clock.now)

def fail (p : Ponger B) : Ponger B := { p with panicked := true }

/-! ## Data and pongs -/

/-- The bytes of the current sample, and its PING. -/
def countBytes (p : Ponger B) (len : ℕ) : Ponger B :=
  match p.shared.bytes with
  | some bytes =>
    let p := { p with shared := { p.shared with bytes := some (min (bytes + len) usizeMax) } }
    if p.isPingSent then p else p.sendPing
  | none => p

/-- `Recorder::record_data`. -/
def recordData (p : Ponger B) (len : ℕ) : Ponger B :=
  match p.shared.nextBdpAt with
  | some next =>
    let (t, p) := p.now
    if t < next then p else { p with shared := { p.shared with nextBdpAt := none } }.countBytes len
  | none => p.countBytes len

/-- The sample ends with its pong. -/
def endSample (p : Ponger B) (t start : ℕ) : Poll ℕ × Ponger B :=
  match p.bdp with
  | some bdp =>
    match p.shared.bytes with
    -- "bdp enabled implies bytes"
    | none => (.panicked, p.fail)
    | some bytes =>
      let (update, bdp) := p.sampler.calculate bdp bytes (t - start)
      let next := t + p.sampler.pingDelay bdp
      let p := { p with bdp := some bdp, shared := { p.shared with bytes := some 0, nextBdpAt := some next } }
      match update with
      | some window => (.ready window, p)
      | none => (.pending, p)
  | none => (.pending, p)

/-- `Ponger::poll`: a new window size, if there is one. -/
def poll (p : Ponger B) : Poll ℕ × Ponger B :=
  let (t, p) := p.now
  match p.shared.pingSentAt with
  | none => (.pending, p)
  | some start =>
    let pong := p.pongs.head
    let p := { p with pongs := p.pongs.tail }
    match pong with
    | .ok => { p with shared := { p.shared with pingSentAt := none } }.updateLastReadAt.noteRead.endSample t start
    | .err | .pending => (.pending, p)

/-- `Ponger::record_read`. -/
def recordRead (p : Ponger B) : Ponger B := p.updateLastReadAt

/-- `Ponger::tracks_idle`. -/
def tracksIdle (p : Ponger B) : Bool :=
  match p.keepAlive with
  | some ka => !ka.whileIdle
  | none => false

/-! ## Keep-alive -/

/-- The timer is set, and the state tells to when. -/
def setState (p : Ponger B) (ka : KeepAlive) (state : KeepAliveState) (sleep : ℕ) : Ponger B :=
  { p with keepAlive := some { ka with state := state, sleep := sleep } }

def schedule (p : Ponger B) (ka : KeepAlive) : Ponger B :=
  match p.shared.lastReadAt with
  | some read => p.setState ka (.scheduled (read + ka.interval)) (read + ka.interval)
  | none => p.fail

def maybeSchedule (p : Ponger B) (isIdle : Bool) : Ponger B :=
  match p.keepAlive with
  | none => p
  | some ka =>
    match ka.state with
    | .init => if !ka.whileIdle && isIdle then p else p.schedule ka
    | .pingSent _ => if p.isPingSent then p else p.schedule ka
    | .scheduled _ => p

def maybePing (p : Ponger B) (isIdle : Bool) : Ponger B :=
  match p.keepAlive with
  | none => p
  | some ka =>
    match ka.state with
    | .scheduled due =>
      let (t, p) := p.now
      if t < ka.sleep then p
      else
        match p.shared.lastReadAt with
        | none => p.fail
        | some read =>
          -- something was read while the PING was scheduled
          if due < read + ka.interval then p.setState ka .init ka.sleep
          else if !ka.whileIdle && isIdle then p.setState ka .init ka.sleep
          else
            let (t, p) := p.now
            let p := (p.note (.ping t isIdle)).sendPing
            let (t, p) := p.now
            p.setState ka (.pingSent (t + ka.timeout)) (t + ka.timeout)
    | .init | .pingSent _ => p

/-- Something else may record a read. -/
def yield (p : Ponger B) : Ponger B :=
  if p.others.head then { p with others := p.others.tail }.updateLastReadAt.noteRead
  else { p with others := p.others.tail }

/-- One round of the loop of `poll_timeout`. -/
def timeoutRound (p : Ponger B) : Ctl ℕ (Ponger B) :=
  match p.keepAlive with
  | none => .ret (.pending, p)
  | some ka =>
    match ka.state with
    | .init | .scheduled _ => .ret (.pending, p)
    | .pingSent deadline =>
      let (t, p) := p.now
      if t < ka.sleep then .ret (.pending, p)
      else
        let p := p.yield
        match p.shared.lastReadAt with
        | none => .ret (.panicked, p.fail)
        | some read =>
          if read + ka.timeout ≤ deadline then .ret (.ready t, p)
          else .again (p.setState ka (.pingSent (read + ka.timeout)) (read + ka.timeout))

def pollTimeout (p : Ponger B) (fuel : ℕ) : Poll ℕ × Ponger B := loop timeoutRound fuel p

/-- `Ponger::poll_keep_alive`. -/
def pollKeepAlive (p : Ponger B) (isIdle : Bool) (fuel : ℕ) : Poll Unit × Ponger B :=
  match p.keepAlive with
  | none => (.pending, p)
  | some _ =>
    let p := (p.maybeSchedule isIdle).maybePing isIdle
    whenReady (p.pollTimeout fuel) fun t p =>
      let p := { p with keepAlive := none, shared := { p.shared with isKeepAliveTimedOut := true } }
      (.ready (), p.note (.timedOut t))

/-! ## The connection -/

/-- What the HTTP/2 connection reports of one poll. -/
structure ConnAnswer where
  pending : Bool
  /-- `take_read_activity` -/
  readActivity : Bool
  hasStreams : Bool
  parked : Bool

/-- `Conn::poll`, without the windows. -/
def connPoll (p : Ponger B) (a : ConnAnswer) (fuel : ℕ) : Ponger B :=
  let p := p.poll.2
  let p := if a.readActivity then p.recordRead.noteRead else p
  if a.pending then (p.pollKeepAlive (p.tracksIdle && !a.hasStreams && !a.parked) fuel).2 else p

inductive Action where
  | data (len : ℕ)
  | poll
  | read
  | keepAlive (isIdle : Bool) (fuel : ℕ)
  | conn (a : ConnAnswer) (fuel : ℕ)

def step (p : Ponger B) : Action → Ponger B
  | .data len => p.recordData len
  | .poll => p.poll.2
  | .read => p.recordRead.noteRead
  | .keepAlive isIdle fuel => (p.pollKeepAlive isIdle fuel).2
  | .conn a fuel => p.connPoll a fuel

def run (p : Ponger B) (acts : List Action) : Ponger B := acts.foldl step p

end Ponger

end Ping

end Netty
