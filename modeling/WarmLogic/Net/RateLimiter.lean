/-
# WarmLogic.Net.RateLimiter — the per-address rate limiter of `transport.rs`, over whole runs.

Every address has a window of one second, a count in it and perhaps a ban. A call reads the clock, and once more when it
has to make the state of a new address, so a step carries both readings; between the steps the clock only goes forward.
An `Instant` is the number of nanoseconds since some fixed moment, and `duration_since` of a later moment is zero, as the
subtraction of natural numbers is. Numbers have no upper end here: a count stays at or below the limit, which is a `u32`,
and `now + ban_duration` would only overflow for bans of hundreds of years, where the source panics.

Addresses do not interact: a step acts on one of them, or drops some (`Lane`). From what one step does to one address
follow the bound on what it gets through in any interval (`admitted_le`), that a ban holds (`ban_holds`), and that
`cleanup_expired`, which forgets addresses, is never noticed (`cleanup_invisible`) where the clock stands still inside a
call. The last needs that: a window that a cleanup made anew begins at the second reading, one that was still there at
the first, and a message a second later falls between the two.

Why an interval of `k` seconds lets through what it does is `LaneInv`: the windows that counted a message begin a
second or more apart, each counted at most the limit, and a message lies within the second of its window. A ban may
replace a window by a new one when it is over, so bans have to last as long as a window. Why a ban holds is `BanInv`:
the state of a banned address carries the end of the ban, and a cleanup keeps a state whose ban is not over.
-/
import WarmLogic.Lib.Run
import WarmLogic.Lib.Spacing
import Mathlib.Data.List.AList

namespace WarmLogic.Net.Limiter

open WarmLogic.Lib

/-! ## The limiter -/

/-- A second, in nanoseconds. -/
def second : Nat := 1000000000

/-- `count` is a `u32` and the two times are `Instant`s. -/
structure RateLimitState where
  count : Nat
  windowStart : Nat
  bannedUntil : Option Nat
  deriving DecidableEq

/-- `RateLimitState::default`, which reads the clock. -/
def RateLimitState.default (now : Nat) : RateLimitState where
  count := 0
  windowStart := now
  bannedUntil := none

/-- `max_per_second` is a `u32`, `ban_duration` a `Duration`. -/
structure RateLimiter (Ip : Type) where
  states : AList fun _ : Ip => RateLimitState
  maxPerSecond : Nat
  banDuration : Nat

/-- `HashMap::retain`. -/
def retain {Ip : Type} (states : AList fun _ : Ip => RateLimitState) (p : RateLimitState → Bool) :
    AList fun _ : Ip => RateLimitState :=
  ⟨states.entries.filter fun entry => p entry.2, states.nodupKeys.sublist List.filter_sublist⟩

/-- The end of `check_and_increment`, for an address that is not banned: its state then, and the answer. -/
def countIn (maxPerSecond banDuration now : Nat) (state : RateLimitState) : RateLimitState × Bool :=
  let state := if second ≤ now - state.windowStart then { state with count := 0, windowStart := now } else state
  if maxPerSecond ≤ state.count then ({ state with bannedUntil := some (now + banDuration) }, false)
  else ({ state with count := state.count + 1 }, true)

/-- `check_and_increment` on the state of the address. -/
def checkState (maxPerSecond banDuration now : Nat) (state : RateLimitState) : RateLimitState × Bool :=
  match state.bannedUntil with
  | some bannedUntil =>
      if now < bannedUntil then (state, false)
      else countIn maxPerSecond banDuration now { bannedUntil := none, count := 0, windowStart := now }
  | none => countIn maxPerSecond banDuration now state

/-- What `cleanup_expired` keeps. -/
def keeps (now : Nat) (state : RateLimitState) : Bool :=
  let recent := decide (now - state.windowStart < 60 * second)
  let banned := state.bannedUntil.any fun t => decide (now < t)
  recent || banned

namespace RateLimiter

variable {Ip : Type} [DecidableEq Ip]

/-- `new`, with the duration of bans in seconds. -/
def new (maxPerSecond banDurationSecs : Nat) : RateLimiter Ip where
  states := ∅
  maxPerSecond := maxPerSecond
  banDuration := banDurationSecs * second

/-- The state of an address, made at `created` if it has none. -/
def entry (limiter : RateLimiter Ip) (ip : Ip) (created : Nat) : RateLimitState :=
  (limiter.states.lookup ip).getD (.default created)

/-- `check_and_increment`: the limiter, and whether the message is let through. -/
def checkAndIncrement (limiter : RateLimiter Ip) (ip : Ip) (now created : Nat) : RateLimiter Ip × Bool :=
  let (state, allowed) := checkState limiter.maxPerSecond limiter.banDuration now (limiter.entry ip created)
  ({ limiter with states := limiter.states.insert ip state }, allowed)

/-- `ban`, for the configured duration from now. -/
def ban (limiter : RateLimiter Ip) (ip : Ip) (created now : Nat) : RateLimiter Ip :=
  let state := { limiter.entry ip created with bannedUntil := some (now + limiter.banDuration) }
  { limiter with states := limiter.states.insert ip state }

/-- `is_banned`. -/
def isBanned (limiter : RateLimiter Ip) (ip : Ip) (now : Nat) : Bool :=
  match limiter.states.lookup ip with
  | none => false
  | some state => state.bannedUntil.any fun bannedUntil => decide (now < bannedUntil)

/-- `tracked_count`. -/
def trackedCount (limiter : RateLimiter Ip) : Nat := limiter.states.entries.length

/-- `cleanup_expired`. -/
def cleanupExpired (limiter : RateLimiter Ip) (now : Nat) : RateLimiter Ip :=
  { limiter with states := retain limiter.states (keeps now) }

end RateLimiter

/-! ## Runs -/

/-- A call on the limiter with the readings of the clock it makes, in their order. -/
inductive RateOp (Ip : Type) where
  | checkAndIncrement (ip : Ip) (now created : Nat)
  | ban (ip : Ip) (created now : Nat)
  | isBanned (ip : Ip) (now : Nat)
  | cleanupExpired (now : Nat)

/-- A message that was let through: the two readings, and the window that counted it. -/
structure Admission where
  now : Nat
  created : Nat
  window : Nat
  deriving DecidableEq

/-- The limiter, the last reading of the clock, what was let through, and who was banned when, by hand or for a message
too many, newest first. -/
structure Limited (Ip : Type) where
  limiter : RateLimiter Ip
  clock : Nat
  admitted : List (Ip × Admission)
  banned : List (Ip × Nat)

namespace RateOp

variable {Ip : Type} [DecidableEq Ip]

/-- The readings follow each other, from the last one before. -/
def Forward (clock : Nat) : RateOp Ip → Prop
  | .checkAndIncrement _ now created => clock ≤ now ∧ now ≤ created
  | .ban _ created now => clock ≤ created ∧ created ≤ now
  | .isBanned _ now => clock ≤ now
  | .cleanupExpired now => clock ≤ now

/-- The limiter after a call, with what the call let through and whom it banned. -/
def run (s : Limited Ip) : RateOp Ip → Limited Ip
  | .checkAndIncrement ip now created =>
      let (limiter, allowed) := s.limiter.checkAndIncrement ip now created
      { s with
        limiter := limiter
        clock := created
        admitted :=
          if allowed then
            (ip, ⟨now, created, ((limiter.states.lookup ip).map (·.windowStart)).getD 0⟩) :: s.admitted
          else s.admitted
        banned := if !allowed && !s.limiter.isBanned ip now then (ip, now) :: s.banned else s.banned }
  | .ban ip created now => { s with limiter := s.limiter.ban ip created now, clock := now, banned := (ip, now) :: s.banned }
  | .isBanned _ now => { s with clock := now }
  | .cleanupExpired now => { s with limiter := s.limiter.cleanupExpired now, clock := now }

end RateOp

/-- The limiter of a configuration, driven by calls in the order of the clock. -/
def rateSystem (Ip : Type) [DecidableEq Ip] (maxPerSecond banDurationSecs : Nat) : System (Limited Ip) (RateOp Ip) where
  init s := s.limiter = .new maxPerSecond banDurationSecs ∧ s.admitted = [] ∧ s.banned = []
  step op s := some (op.run s)

/-! ## One address -/

/-- What a run leaves of one address. -/
structure Lane where
  state : Option RateLimitState
  clock : Nat
  admitted : List Admission
  banned : List Nat

/-- The state that a message is counted into, where the address is not banned. -/
def current (now : Nat) (state : RateLimitState) : RateLimitState :=
  match state.bannedUntil with
  | some _ => { bannedUntil := none, count := 0, windowStart := now }
  | none => if second ≤ now - state.windowStart then { state with count := 0, windowStart := now } else state

/-- The state holds a ban that is not over. -/
def barred (now : Nat) (state : RateLimitState) : Bool := state.bannedUntil.any fun t => decide (now < t)

/-- A banned address is refused, and its state stays. -/
theorem checkState_of_barred {maxPerSecond banDuration now : Nat} {state : RateLimitState}
    (h : barred now state = true) : checkState maxPerSecond banDuration now state = (state, false) := by
  unfold barred at h
  unfold checkState
  cases hban : state.bannedUntil with
  | none =>
      rw [hban] at h
      cases h
  | some t =>
      rw [hban] at h
      exact if_pos (of_decide_eq_true h)

/-- Any other is counted into its window, or into a new one. -/
theorem checkState_of_not_barred (maxPerSecond banDuration : Nat) {now : Nat} {state : RateLimitState}
    (h : barred now state = false) :
    checkState maxPerSecond banDuration now state =
      if maxPerSecond ≤ (current now state).count then
        ({ current now state with bannedUntil := some (now + banDuration) }, false)
      else ({ current now state with count := (current now state).count + 1 }, true) := by
  obtain ⟨count, windowStart, bannedUntil⟩ := state
  cases bannedUntil with
  | none => rfl
  | some t =>
      have hlate : ¬now < t := of_decide_eq_false h
      have hyoung : ¬second ≤ now - now := by
        rw [Nat.sub_self]
        decide
      simp only [checkState, current, if_neg hlate, countIn, if_neg hyoung]
      rfl

namespace Lane

/-- What a step of the limiter can do to one address. -/
inductive Step (maxPerSecond banDuration : Nat) (l : Lane) : Lane → Prop
  | idle {clock : Nat} : l.clock ≤ clock → Step maxPerSecond banDuration l { l with clock := clock }
  | barred {now created : Nat} {state : RateLimitState} : l.clock ≤ now → now ≤ created → l.state = some state →
      barred now state = true → Step maxPerSecond banDuration l { l with clock := created }
  | exceeded {now created : Nat} : l.clock ≤ now → now ≤ created →
      barred now (l.state.getD (.default created)) = false →
      maxPerSecond ≤ (current now (l.state.getD (.default created))).count →
      Step maxPerSecond banDuration l
        { l with
          state := some { current now (l.state.getD (.default created)) with bannedUntil := some (now + banDuration) }
          clock := created
          banned := now :: l.banned }
  | admitted {now created : Nat} : l.clock ≤ now → now ≤ created →
      barred now (l.state.getD (.default created)) = false →
      (current now (l.state.getD (.default created))).count < maxPerSecond →
      Step maxPerSecond banDuration l
        { l with
          state := some { current now (l.state.getD (.default created)) with
            count := (current now (l.state.getD (.default created))).count + 1 }
          clock := created
          admitted := ⟨now, created, (current now (l.state.getD (.default created))).windowStart⟩ :: l.admitted }
  | banned {now created : Nat} : l.clock ≤ created → created ≤ now →
      Step maxPerSecond banDuration l
        { l with
          state := some { l.state.getD (.default created) with bannedUntil := some (now + banDuration) }
          clock := now
          banned := now :: l.banned }
  | dropped {now : Nat} {state : RateLimitState} : l.clock ≤ now → l.state = some state → keeps now state = false →
      Step maxPerSecond banDuration l { l with state := none, clock := now }

end Lane

section Lookup

variable {Ip : Type} [DecidableEq Ip]

/-- What is retained under a key: the state, if it is kept. -/
theorem lookup_retain (states : AList fun _ : Ip => RateLimitState) (p : RateLimitState → Bool) (ip : Ip) :
    (retain states p).lookup ip = (states.lookup ip).filter p := by
  ext state
  rw [Option.filter_eq_some_iff]
  show state ∈ (retain states p).lookup ip ↔ state ∈ states.lookup ip ∧ p state = true
  rw [AList.mem_lookup_iff, AList.mem_lookup_iff]
  exact List.mem_filter

/-- What a list of tagged things says of one address. -/
def of {α : Type} (ip : Ip) (l : List (Ip × α)) : List α := (l.filter fun e => e.1 = ip).map Prod.snd

/-- A new thing of this address. -/
theorem of_cons_self {α : Type} (ip : Ip) (x : α) (l : List (Ip × α)) : of ip ((ip, x) :: l) = x :: of ip l := by
  simp [of]

/-- A new thing of another. -/
theorem of_cons_ne {α : Type} {ip ip' : Ip} (h : ip' ≠ ip) (x : α) (l : List (Ip × α)) :
    of ip ((ip', x) :: l) = of ip l := by
  simp [of, h]

/-- What the run has left of an address. -/
def Limited.lane (s : Limited Ip) (ip : Ip) : Lane where
  state := s.limiter.states.lookup ip
  clock := s.clock
  admitted := of ip s.admitted
  banned := of ip s.banned

/-- `is_banned`, by the state of the address. -/
theorem isBanned_eq (limiter : RateLimiter Ip) (ip : Ip) (now created : Nat) :
    limiter.isBanned ip now = barred now (limiter.entry ip created) := by
  unfold RateLimiter.isBanned RateLimiter.entry barred
  cases limiter.states.lookup ip with
  | none => rfl
  | some state => rfl

/-- A message, with the state that its address then has. -/
theorem run_check (s : Limited Ip) (ip : Ip) (now created : Nat) {state : RateLimitState} {allowed : Bool}
    (h : checkState s.limiter.maxPerSecond s.limiter.banDuration now (s.limiter.entry ip created) = (state, allowed)) :
    RateOp.run s (.checkAndIncrement ip now created) =
      { s with
        limiter := { s.limiter with states := s.limiter.states.insert ip state }
        clock := created
        admitted := if allowed then (ip, ⟨now, created, state.windowStart⟩) :: s.admitted else s.admitted
        banned := if !allowed && !s.limiter.isBanned ip now then (ip, now) :: s.banned else s.banned } := by
  have hcheck : s.limiter.checkAndIncrement ip now created
      = ({ s.limiter with states := s.limiter.states.insert ip state }, allowed) := by
    unfold RateLimiter.checkAndIncrement
    rw [h]
  unfold RateOp.run
  simp only [hcheck, AList.lookup_insert, Option.map_some, Option.getD_some]

/-- The message of another address passes by. -/
theorem check_lane_ne (s : Limited Ip) {ip ip' : Ip} (hip : ip' ≠ ip) (now created : Nat) :
    (RateOp.run s (.checkAndIncrement ip' now created)).lane ip = { s.lane ip with clock := created } := by
  cases hcheck : checkState s.limiter.maxPerSecond s.limiter.banDuration now (s.limiter.entry ip' created) with
  | mk state allowed =>
      rw [run_check s ip' now created hcheck]
      simp only [Limited.lane, AList.lookup_insert_ne (Ne.symm hip)]
      congr 1
      · split
        · exact of_cons_ne hip _ s.admitted
        · rfl
      · split
        · exact of_cons_ne hip now s.banned
        · rfl

/-- The address of the message has the new state, and what it got through. -/
theorem check_lane (s : Limited Ip) (ip : Ip) (now created : Nat) {state : RateLimitState} {allowed : Bool}
    (h : checkState s.limiter.maxPerSecond s.limiter.banDuration now ((s.lane ip).state.getD (.default created))
      = (state, allowed)) :
    (RateOp.run s (.checkAndIncrement ip now created)).lane ip =
      { state := some state
        clock := created
        admitted :=
          if allowed then ⟨now, created, state.windowStart⟩ :: (s.lane ip).admitted else (s.lane ip).admitted
        banned :=
          if !allowed && !barred now ((s.lane ip).state.getD (.default created)) then now :: (s.lane ip).banned
          else (s.lane ip).banned } := by
  have hbanned : s.limiter.isBanned ip now = barred now ((s.lane ip).state.getD (.default created)) :=
    isBanned_eq s.limiter ip now created
  rw [run_check s ip now created h, ← hbanned]
  simp only [Limited.lane, AList.lookup_insert]
  congr 1
  · split
    · exact of_cons_self ip _ s.admitted
    · rfl
  · split
    · exact of_cons_self ip now s.banned
    · rfl

/-- A message is a step of every address. -/
theorem check_step (s : Limited Ip) (ip : Ip) {now created : Nat} (hnow : s.clock ≤ now) (hcreated : now ≤ created) :
    (s.lane ip).Step s.limiter.maxPerSecond s.limiter.banDuration
      ((RateOp.run s (.checkAndIncrement ip now created)).lane ip) := by
  cases hbar : barred now ((s.lane ip).state.getD (.default created)) with
  | true =>
      -- only an address with a state can be banned
      obtain ⟨state, hstate⟩ : ∃ state, (s.lane ip).state = some state := by
        cases hstate : (s.lane ip).state with
        | none =>
            rw [hstate] at hbar
            cases hbar
        | some state => exact ⟨state, rfl⟩
      have hlane := check_lane s ip now created (checkState_of_barred hbar)
      rw [hbar, hstate] at hlane
      rw [hstate] at hbar
      rw [hlane]
      have hsame : { s.lane ip with clock := created } =
          Lane.mk (some state) created (s.lane ip).admitted (s.lane ip).banned := by rw [← hstate]
      exact hsame ▸ Lane.Step.barred hnow hcreated hstate hbar
  | false =>
      have hcheck := checkState_of_not_barred s.limiter.maxPerSecond
        s.limiter.banDuration hbar
      by_cases hmax : s.limiter.maxPerSecond ≤ (current now ((s.lane ip).state.getD (.default created))).count
      · rw [if_pos hmax] at hcheck
        have hlane := check_lane s ip now created hcheck
        rw [hbar] at hlane
        rw [hlane]
        exact .exceeded hnow hcreated hbar hmax
      · rw [if_neg hmax] at hcheck
        rw [check_lane s ip now created hcheck]
        exact .admitted hnow hcreated hbar (Nat.not_le.mp hmax)

/-- **A step of the limiter is a step of every address.** -/
theorem lane_step {s : Limited Ip} {op : RateOp Ip} (hforward : op.Forward s.clock) (ip : Ip) :
    (s.lane ip).Step s.limiter.maxPerSecond s.limiter.banDuration ((op.run s).lane ip) := by
  cases op with
  | checkAndIncrement ip' now created =>
      obtain ⟨hnow, hcreated⟩ := hforward
      by_cases hip : ip' = ip
      · subst hip
        exact check_step s ip' hnow hcreated
      · rw [check_lane_ne s hip now created]
        exact .idle (hnow.trans hcreated)
  | ban ip' created now =>
      obtain ⟨hcreated, hnow⟩ := hforward
      by_cases hip : ip' = ip
      · subst hip
        have hlane : (RateOp.run s (.ban ip' created now)).lane ip' =
            { s.lane ip' with
              state := some { (s.lane ip').state.getD (.default created) with
                bannedUntil := some (now + s.limiter.banDuration) }
              clock := now
              banned := now :: (s.lane ip').banned } := by
          simp only [Limited.lane, RateOp.run, RateLimiter.ban, AList.lookup_insert, of_cons_self, RateLimiter.entry]
        rw [hlane]
        exact .banned hcreated hnow
      · have hlane : (RateOp.run s (.ban ip' created now)).lane ip = { s.lane ip with clock := now } := by
          simp only [Limited.lane, RateOp.run, RateLimiter.ban, AList.lookup_insert_ne (Ne.symm hip), of_cons_ne hip]
        rw [hlane]
        exact .idle (hcreated.trans hnow)
  | isBanned ip' now => exact .idle hforward
  | cleanupExpired now =>
      have hlane : (RateOp.run s (.cleanupExpired now)).lane ip =
          { s.lane ip with state := (s.lane ip).state.filter (keeps now), clock := now } := by
        simp only [Limited.lane, RateOp.run, RateLimiter.cleanupExpired, lookup_retain]
      rw [hlane]
      cases hstate : (s.lane ip).state with
      | none =>
          rw [Option.filter_none, ← hstate]
          exact .idle hforward
      | some state =>
          cases hkeeps : keeps now state with
          | true =>
              rw [Option.filter_some, if_pos hkeeps, ← hstate]
              exact .idle hforward
          | false =>
              rw [Option.filter_some, if_neg (by simp [hkeeps])]
              exact .dropped hforward hstate hkeeps

end Lookup

/-! ## What an interval lets through -/

/-- **What keeps an address within its limit**: its windows are a second apart, each message lies within the second of
its window, the state counts the last window, and a ban or a cleanup comes to an end behind all of them. So a new
window never begins within an old one, and no window counts more than the limit. -/
structure LaneInv (maxPerSecond : Nat) (l : Lane) : Prop where
  spaced : Spaced Admission.window second maxPerSecond l.admitted
  inside : ∀ a ∈ l.admitted, a.window ≤ a.created ∧ a.now < a.window + second ∧ a.window ≤ l.clock
  start : ∀ state, l.state = some state → state.windowStart ≤ l.clock
  counts : ∀ state, l.state = some state → state.bannedUntil = none →
    (∀ a ∈ l.admitted, state.windowStart = a.window ∨ a.window + second ≤ state.windowStart) ∧
      (l.admitted.filter fun a => a.window = state.windowStart).length = state.count
  behind : ∀ state t, l.state = some state → state.bannedUntil = some t → ∀ a ∈ l.admitted, a.window + second ≤ t
  gone : l.state = none → ∀ a ∈ l.admitted, a.window + second ≤ l.clock

section Lane

variable {maxPerSecond banDuration : Nat} {l l' : Lane}

/-- A window that begins behind the others has counted nothing. -/
theorem filter_window_nil {admitted : List Admission} {w : Nat} (h : ∀ a ∈ admitted, a.window + second ≤ w) :
    (admitted.filter fun a => a.window = w).length = 0 := by
  rw [List.length_eq_zero_iff, List.filter_eq_nil_iff]
  intro a ha hw
  have hlate := h a ha
  have hpos : 0 < second := by decide
  have hw := of_decide_eq_true hw
  omega

/-- A state made anew at `w`, behind all windows, counts as it should. -/
theorem counts_fresh {admitted : List Admission} {w : Nat} (h : ∀ a ∈ admitted, a.window + second ≤ w) :
    (∀ a ∈ admitted, w = a.window ∨ a.window + second ≤ w) ∧
      (admitted.filter fun a => a.window = w).length = 0 :=
  ⟨fun a ha => .inr (h a ha), filter_window_nil h⟩

/-- **What a message is counted into**: the last window, or a new one behind it. -/
theorem LaneInv.current (h : LaneInv maxPerSecond l) {now created : Nat} (hnow : l.clock ≤ now)
    (hcreated : now ≤ created) (hbar : barred now (l.state.getD (.default created)) = false) :
    ∃ w, (current now (l.state.getD (.default created))).windowStart = w ∧
      (current now (l.state.getD (.default created))).bannedUntil = none ∧ w ≤ created ∧ now < w + second ∧
      (∀ a ∈ l.admitted, w = a.window ∨ a.window + second ≤ w) ∧
      (l.admitted.filter fun a => a.window = w).length
        = (current now (l.state.getD (.default created))).count := by
  have hpos : 0 < second := by decide
  cases hstate : l.state with
  | none =>
      have hyoung : ¬second ≤ now - created := by omega
      have hcurrent : Limiter.current now (.default created) = .default created := if_neg hyoung
      have hfresh := counts_fresh (w := created) fun a ha => (h.gone hstate a ha).trans (hnow.trans hcreated)
      rw [Option.getD_none, hcurrent]
      exact ⟨created, rfl, rfl, le_refl created, by omega, hfresh⟩
  | some state =>
      rw [Option.getD_some]
      rw [hstate, Option.getD_some] at hbar
      cases hban : state.bannedUntil with
      | some t =>
          -- the ban has run out
          have hover : t ≤ now := by
            unfold barred at hbar
            rw [hban] at hbar
            exact Nat.not_lt.mp (of_decide_eq_false hbar)
          have hcurrent : Limiter.current now state = { bannedUntil := none, count := 0, windowStart := now } := by
            unfold Limiter.current
            rw [hban]
          have hfresh := counts_fresh (w := now) fun a ha => (h.behind state t hstate hban a ha).trans hover
          rw [hcurrent]
          exact ⟨now, rfl, rfl, hcreated, by omega, hfresh⟩
      | none =>
          obtain ⟨hwindows, hcount⟩ := h.counts state hstate hban
          have hstart := h.start state hstate
          by_cases hold : second ≤ now - state.windowStart
          · have hcurrent : Limiter.current now state = { state with count := 0, windowStart := now } := by
              unfold Limiter.current
              rw [hban]
              exact if_pos hold
            have hlate : ∀ a ∈ l.admitted, a.window + second ≤ now := fun a ha => by
              rcases hwindows a ha with heq | hle <;> omega
            have hfresh := counts_fresh hlate
            rw [hcurrent]
            exact ⟨now, rfl, hban, hcreated, by omega, hfresh⟩
          · have hcurrent : Limiter.current now state = state := by
              unfold Limiter.current
              rw [hban]
              exact if_neg hold
            rw [hcurrent]
            exact ⟨state.windowStart, rfl, hban, by omega, by omega, hwindows, hcount⟩

/-- **The step lemma**, one case for each thing a step can do to an address. -/
theorem LaneInv.step (hban : second ≤ banDuration) (h : LaneInv maxPerSecond l) (hstep : l.Step maxPerSecond banDuration l') :
    LaneInv maxPerSecond l' := by
  have hinside : ∀ {clock}, l.clock ≤ clock → ∀ a ∈ l.admitted,
      a.window ≤ a.created ∧ a.now < a.window + second ∧ a.window ≤ clock := fun hclock a ha =>
    ⟨(h.inside a ha).1, (h.inside a ha).2.1, (h.inside a ha).2.2.trans hclock⟩
  cases hstep with
  | idle hclock =>
      exact ⟨h.spaced, hinside hclock, fun state hs => (h.start state hs).trans hclock, h.counts, h.behind,
        fun hs a ha => (h.gone hs a ha).trans hclock⟩
  | barred hnow hcreated hstate hbar =>
      have hclock := hnow.trans hcreated
      exact ⟨h.spaced, hinside hclock, fun state hs => (h.start state hs).trans hclock, h.counts, h.behind,
        fun hs a ha => (h.gone hs a ha).trans hclock⟩
  | @exceeded now created hnow hcreated hbar hmax =>
      obtain ⟨w, hw, hnoban, hwc, hwnow, hwindows, hcount⟩ := h.current hnow hcreated hbar
      refine ⟨h.spaced, hinside (hnow.trans hcreated), ?_, ?_, ?_, fun hs => by cases hs⟩
      · rintro state ⟨⟩
        exact hw.trans_le hwc
      · rintro state ⟨⟩ hs
        cases hs
      · rintro state t ⟨⟩ ⟨⟩ a ha
        have := (h.inside a ha).2.2
        omega
  | @admitted now created hnow hcreated hbar hmax =>
      obtain ⟨w, hw, hnoban, hwc, hwnow, hwindows, hcount⟩ := h.current hnow hcreated hbar
      rw [hw]
      refine ⟨h.spaced.cons hwindows (by rw [hcount]; exact hmax), ?_, ?_, ?_, ?_, fun hs => by cases hs⟩
      · intro a ha
        rcases List.mem_cons.mp ha with rfl | ha
        · exact ⟨hwc, hwnow, hwc⟩
        · exact hinside (hnow.trans hcreated) a ha
      · rintro state ⟨⟩
        exact hw.trans_le hwc
      · rintro state ⟨⟩ -
        show (∀ a ∈ _, (Limiter.current now (l.state.getD (.default created))).windowStart = _ ∨ _) ∧ _
        rw [hw]
        refine ⟨fun a ha => ?_, ?_⟩
        · rcases List.mem_cons.mp ha with rfl | ha
          · exact .inl rfl
          · exact hwindows a ha
        · rw [List.filter_cons, if_pos (decide_eq_true rfl), List.length_cons, hcount]
      · rintro state t ⟨⟩ hs
        rw [show _ = none from hnoban] at hs
        cases hs
  | @banned now created hcreated hnow =>
      refine ⟨h.spaced, hinside (hcreated.trans hnow), ?_, ?_, ?_, fun hs => by cases hs⟩
      · rintro state ⟨⟩
        show (l.state.getD (.default created)).windowStart ≤ now
        cases hstate : l.state with
        | none => exact hnow
        | some state => exact (h.start state hstate).trans (hcreated.trans hnow)
      · rintro state ⟨⟩ hs
        cases hs
      · rintro state t ⟨⟩ ⟨⟩ a ha
        have := (h.inside a ha).2.2
        omega
  | @dropped now state hnow hstate hkeeps =>
      refine ⟨h.spaced, hinside hnow, fun _ hs => (by cases hs), fun _ hs => (by cases hs),
        fun _ _ hs => (by cases hs), fun _ a ha => ?_⟩
      -- neither recent nor banned
      show a.window + second ≤ now
      unfold keeps at hkeeps
      rw [Bool.or_eq_false_iff] at hkeeps
      obtain ⟨hrecent, hover⟩ := hkeeps
      have hrecent := of_decide_eq_false hrecent
      cases hban : state.bannedUntil with
      | none =>
          have hpos : 0 < second := by decide
          rcases (h.counts state hstate hban).1 a ha with heq | hle <;> omega
      | some t =>
          rw [hban] at hover
          have hover : ¬now < t := of_decide_eq_false hover
          have := h.behind state t hstate hban a ha
          omega

/-! ## Bans -/

/-- **What keeps an address banned**: until a ban of the past is over, the state has a ban that ends no earlier. A
later ban only moves the end on, a refused message leaves the state, and a cleanup keeps it. -/
structure BanInv (banDuration : Nat) (l : Lane) : Prop where
  past : ∀ t ∈ l.banned, t ≤ l.clock
  held : ∀ t ∈ l.banned, l.clock < t + banDuration →
    ∃ state till, l.state = some state ∧ state.bannedUntil = some till ∧ t + banDuration ≤ till

/-- While a ban lasts, the state is barred. -/
theorem BanInv.barred (h : BanInv banDuration l) {t now : Nat} (ht : t ∈ l.banned) (hnow : l.clock ≤ now)
    (hlt : now < t + banDuration) : ∃ state, l.state = some state ∧ barred now state = true := by
  obtain ⟨state, till, hstate, hban, hle⟩ := h.held t ht (by omega)
  refine ⟨state, hstate, ?_⟩
  unfold Limiter.barred
  rw [hban]
  exact decide_eq_true (by omega)

/-- **The step lemma** for bans. -/
theorem BanInv.step (h : BanInv banDuration l) (hstep : l.Step maxPerSecond banDuration l') : BanInv banDuration l' := by
  -- a state that is not barred now has no ban that lasts
  have hnone : ∀ {now created t}, l.clock ≤ now → now ≤ created →
      Limiter.barred now (l.state.getD (.default created)) = false → t ∈ l.banned → ¬created < t + banDuration := by
    intro now created t hnow hcreated hbar ht hlt
    obtain ⟨state, hstate, hyes⟩ := h.barred ht hnow (by omega)
    rw [hstate, Option.getD_some, hyes] at hbar
    cases hbar
  have hlater : ∀ {clock}, l.clock ≤ clock → BanInv banDuration { l with clock := clock } := fun hclock =>
    ⟨fun t ht => (h.past t ht).trans hclock, fun t ht hlt => h.held t ht (Nat.lt_of_le_of_lt hclock hlt)⟩
  cases hstep with
  | idle hclock => exact hlater hclock
  | barred hnow hcreated hstate hbar => exact hlater (hnow.trans hcreated)
  | @exceeded now created hnow hcreated hbar hmax =>
      refine ⟨fun t ht => ?_, fun t ht hlt => ?_⟩
      · rcases List.mem_cons.mp ht with rfl | ht
        · exact hcreated
        · exact (h.past t ht).trans (hnow.trans hcreated)
      · rcases List.mem_cons.mp ht with rfl | ht
        · exact ⟨_, _, rfl, rfl, le_refl _⟩
        · exact absurd hlt (hnone hnow hcreated hbar ht)
  | @admitted now created hnow hcreated hbar hmax =>
      exact ⟨fun t ht => (h.past t ht).trans (hnow.trans hcreated),
        fun t ht hlt => absurd hlt (hnone hnow hcreated hbar ht)⟩
  | @banned now created hcreated hnow =>
      have hpast : ∀ t ∈ now :: l.banned, t ≤ now := by
        intro t ht
        rcases List.mem_cons.mp ht with rfl | ht
        · exact le_refl t
        · exact (h.past t ht).trans (hcreated.trans hnow)
      exact ⟨hpast, fun t ht _ => ⟨_, _, rfl, rfl, Nat.add_le_add_right (hpast t ht) banDuration⟩⟩
  | @dropped now state hnow hstate hkeeps =>
      refine ⟨fun t ht => (h.past t ht).trans hnow, fun t ht hlt => ?_⟩
      obtain ⟨state', hstate', hbar⟩ := h.barred ht hnow hlt
      obtain rfl := Option.some.inj (hstate.symm.trans hstate')
      unfold keeps at hkeeps
      rw [Bool.or_eq_false_iff] at hkeeps
      exact absurd (hbar.symm.trans hkeeps.2) (by decide)

end Lane

/-! ## Whole runs -/

section Runs

variable {Ip : Type} [DecidableEq Ip] {maxPerSecond banDurationSecs : Nat} {s : Limited Ip}

/-- The clock goes forward. -/
def Forward (op : RateOp Ip) (s : Limited Ip) : Prop := op.Forward s.clock

/-- The last reading of a call. -/
def RateOp.last : RateOp Ip → Nat
  | .checkAndIncrement _ _ created => created
  | .ban _ _ now => now
  | .isBanned _ now => now
  | .cleanupExpired now => now

/-- Calls in the order of the clock. -/
def InOrder : Nat → List (RateOp Ip) → Prop
  | _, [] => True
  | clock, op :: ops => op.Forward clock ∧ InOrder op.last ops

/-- Calls in the order of the clock are a run. -/
theorem reachable_foldl {ops : List (RateOp Ip)} (hs : (rateSystem Ip maxPerSecond banDurationSecs).init s)
    (horder : InOrder s.clock ops) :
    (rateSystem Ip maxPerSecond banDurationSecs).Reachable Forward (ops.foldl RateOp.run s) := by
  have key : ∀ (ops : List (RateOp Ip)) (s : Limited Ip),
      (rateSystem Ip maxPerSecond banDurationSecs).Reachable Forward s → InOrder s.clock ops →
      (rateSystem Ip maxPerSecond banDurationSecs).Reachable Forward (ops.foldl RateOp.run s) := by
    intro ops
    induction ops with
    | nil => exact fun s hs _ => hs
    | cons op ops ih =>
        rintro s ⟨past, hrun⟩ ⟨hforward, hrest⟩
        have hclock : (op.run s).clock = op.last := by cases op <;> rfl
        exact ih (op.run s) ⟨_, .step hrun hforward rfl⟩ (hclock ▸ hrest)
  exact key ops s ⟨[], .init hs⟩ horder

/-- Two messages a second, and a third that comes too early. -/
def threeMessages : List (RateOp Nat) :=
  [.checkAndIncrement 7 10 11, .checkAndIncrement 7 20 20, .checkAndIncrement 7 30 31, .isBanned 7 40, .cleanupExpired 50]

/-- The limiter behind them, which lets two messages a second through. -/
def afterThree : Limited Nat := threeMessages.foldl RateOp.run ⟨.new 2 1, 0, [], []⟩

/-- They are calls of a run. -/
theorem afterThree_reachable : (rateSystem Nat 2 1).Reachable Forward afterThree := by
  refine reachable_foldl ⟨rfl, rfl, rfl⟩ ?_
  simp [threeMessages, InOrder, RateOp.Forward, RateOp.last]

/-- No call changes the configuration. -/
theorem run_config (op : RateOp Ip) (s : Limited Ip) :
    (op.run s).limiter.maxPerSecond = s.limiter.maxPerSecond ∧
      (op.run s).limiter.banDuration = s.limiter.banDuration := by
  cases op <;> exact ⟨rfl, rfl⟩

/-- A property that every address has at the start and keeps at its steps. -/
theorem lane_invariant {P : Lane → Prop} (hinit : ∀ clock, P ⟨none, clock, [], []⟩)
    (hstep : ∀ l l', P l → l.Step maxPerSecond (banDurationSecs * second) l' → P l')
    (h : (rateSystem Ip maxPerSecond banDurationSecs).Reachable Forward s) (ip : Ip) : P (s.lane ip) := by
  have hboth : (s.limiter.maxPerSecond = maxPerSecond ∧ s.limiter.banDuration = banDurationSecs * second) ∧
      ∀ ip, P (s.lane ip) := by
    refine h.invariant (P := fun s => (s.limiter.maxPerSecond = maxPerSecond ∧
      s.limiter.banDuration = banDurationSecs * second) ∧ ∀ ip, P (s.lane ip)) ?_ ?_
    · rintro s ⟨hlimiter, hadmitted, hbanned⟩
      refine ⟨by rw [hlimiter]; exact ⟨rfl, rfl⟩, fun ip => ?_⟩
      have hlane : s.lane ip = ⟨none, s.clock, [], []⟩ := by
        unfold Limited.lane
        rw [hlimiter, hadmitted, hbanned]
        rfl
      rw [hlane]
      exact hinit s.clock
    · rintro s op s' ⟨⟨hmax, hban⟩, hlanes⟩ hok hrun
      obtain rfl := Option.some.inj hrun
      obtain ⟨hmax', hban'⟩ := run_config op s
      refine ⟨⟨hmax'.trans hmax, hban'.trans hban⟩, fun ip => hstep (s.lane ip) _ (hlanes ip) ?_⟩
      rw [← hmax, ← hban]
      exact lane_step hok ip
  exact hboth.2 ip

/-- **What an interval lets through**, in every run of a limiter whose bans last a second or more: of one address,
calls made within `k` seconds, wherever they begin, let at most `k + 1` times the limit through. The windows that
counted a message lie a second apart, so `k` seconds meet at most `k + 1` of them. -/
theorem admitted_le (hban : 1 ≤ banDurationSecs)
    (h : (rateSystem Ip maxPerSecond banDurationSecs).Reachable Forward s) (ip : Ip) (start k : Nat) :
    ((of ip s.admitted).filter fun a => start ≤ a.now ∧ a.created < start + k * second).length
      ≤ (k + 1) * maxPerSecond := by
  have hduration : second ≤ banDurationSecs * second := Nat.le_mul_of_pos_left second hban
  have hinv : LaneInv maxPerSecond (s.lane ip) := by
    refine lane_invariant (fun clock => ?_) (fun l l' hl hstep => hl.step hduration hstep) h ip
    exact ⟨Spaced.nil _ _ _, fun a ha => absurd ha List.not_mem_nil, fun _ hs => (by cases hs), fun _ hs => (by cases hs),
      fun _ _ hs => (by cases hs), fun _ a ha => absurd ha List.not_mem_nil⟩
  have hmem : ∀ a ∈ (of ip s.admitted).filter fun a => start ≤ a.now ∧ a.created < start + k * second,
      a ∈ of ip s.admitted ∧ start ≤ a.now ∧ a.created < start + k * second := by
    intro a ha
    exact ⟨(List.mem_filter.mp ha).1, of_decide_eq_true (List.mem_filter.mp ha).2⟩
  refine Spaced.length_le (hinv.spaced.filter _) (by decide) start (k + 1) ?_ ?_
  · intro a ha
    obtain ⟨hin, hfrom, -⟩ := hmem a ha
    have := (hinv.inside a hin).2.1
    omega
  · intro a ha
    obtain ⟨hin, -, hto⟩ := hmem a ha
    have := (hinv.inside a hin).1
    rw [Nat.add_mul]
    omega

/-- Of the three messages within a second two are let through. -/
theorem admitted_le_three :
    ((of 7 afterThree.admitted).filter fun a => 0 ≤ a.now ∧ a.created < 0 + 1 * second).length ≤ (1 + 1) * 2 :=
  admitted_le (by decide) afterThree_reachable 7 0 1

/-- **A ban holds**, whether it was given by hand or for a message too many, and through every cleanup: until it has
run out the address is refused. The state of the address carries the ban, and neither a call nor a cleanup takes it
away before its end. -/
theorem ban_holds (h : (rateSystem Ip maxPerSecond banDurationSecs).Reachable Forward s) {ip : Ip} {t now created : Nat}
    (ht : (ip, t) ∈ s.banned) (hnow : s.clock ≤ now) (hlt : now < t + banDurationSecs * second) :
    (s.limiter.checkAndIncrement ip now created).2 = false ∧ s.limiter.isBanned ip now = true := by
  have hinv : BanInv (banDurationSecs * second) (s.lane ip) :=
    lane_invariant (fun clock => ⟨fun t ht => absurd ht List.not_mem_nil, fun t ht => absurd ht List.not_mem_nil⟩)
      (fun l l' hl hstep => hl.step hstep) h ip
  have hmem : t ∈ (s.lane ip).banned := by
    apply List.mem_map.mpr
    exact ⟨(ip, t), List.mem_filter.mpr ⟨ht, decide_eq_true rfl⟩, rfl⟩
  obtain ⟨state, hstate, hbar⟩ := hinv.barred hmem hnow hlt
  have hstate : s.limiter.states.lookup ip = some state := hstate
  constructor
  · unfold RateLimiter.checkAndIncrement RateLimiter.entry
    rw [hstate, Option.getD_some, checkState_of_barred hbar]
  · unfold RateLimiter.isBanned
    rw [hstate]
    exact hbar

/-- The third one bans its address. -/
theorem ban_holds_three :
    (afterThree.limiter.checkAndIncrement 7 1000000029 1000000029).2 = false ∧
      afterThree.limiter.isBanned 7 1000000029 = true :=
  ban_holds (t := 30) afterThree_reachable (by decide +kernel) (by decide) (by decide)

end Runs

/-! ## Cleaning up -/

section Cleanup

variable {Ip : Type} [DecidableEq Ip]

/-- What the calls answer, in their order. -/
def answers (limiter : RateLimiter Ip) : List (RateOp Ip) → List Bool
  | [] => []
  | .checkAndIncrement ip now created :: ops =>
      (limiter.checkAndIncrement ip now created).2 :: answers (limiter.checkAndIncrement ip now created).1 ops
  | .ban ip created now :: ops => answers (limiter.ban ip created now) ops
  | .isBanned ip now :: ops => limiter.isBanned ip now :: answers limiter ops
  | .cleanupExpired now :: ops => answers (limiter.cleanupExpired now) ops

/-- A call of `cleanup_expired`. -/
def RateOp.isCleanup : RateOp Ip → Bool
  | .cleanupExpired _ => true
  | _ => false

/-- The clock does not tick between the two readings of `check_and_increment`. -/
def RateOp.Instant : RateOp Ip → Prop
  | .checkAndIncrement _ now created => created = now
  | _ => True

/-- Where one address stands in two limiters of which only the first was cleaned up: it has forgotten a state that no
longer matters, or it made a new one, and what makes the two differ is behind a ban. -/
inductive Twin (clock : Nat) : Option RateLimitState → Option RateLimitState → Prop
  | same {state : Option RateLimitState} : Twin clock state state
  | gone {state : RateLimitState} : (state.bannedUntil = none → state.windowStart + second ≤ clock) →
      (∀ t, state.bannedUntil = some t → t ≤ clock) → Twin clock none (some state)
  | banned {state state' : RateLimitState} {t : Nat} : state.bannedUntil = some t → state'.bannedUntil = some t →
      Twin clock (some state) (some state')

namespace Twin

variable {clock now : Nat} {x y : Option RateLimitState}

theorem later (h : Twin clock x y) (hnow : clock ≤ now) : Twin now x y := by
  cases h with
  | same => exact .same
  | gone hwindow hban => exact .gone (fun hs => (hwindow hs).trans hnow) fun t ht => (hban t ht).trans hnow
  | banned hx hy => exact .banned hx hy

/-- A state that no longer matters counts like a new one. -/
theorem current_gone {state : RateLimitState} (hwindow : state.bannedUntil = none → state.windowStart + second ≤ now)
    (hban : ∀ t, state.bannedUntil = some t → t ≤ now) :
    barred now state = false ∧ current now state = .default now := by
  unfold barred current
  cases hs : state.bannedUntil with
  | none =>
      have hold : second ≤ now - state.windowStart := by
        have := hwindow hs
        omega
      refine ⟨rfl, ?_⟩
      show (if second ≤ now - state.windowStart then _ else state) = _
      rw [if_pos hold]
      rfl
  | some t => exact ⟨decide_eq_false (Nat.not_lt.mpr (hban t hs)), rfl⟩

/-- A state made at the reading counts from there. -/
theorem current_default (now : Nat) : current now (.default now) = .default now := by
  have hyoung : ¬second ≤ now - now := by
    rw [Nat.sub_self]
    decide
  exact if_neg hyoung

/-- A message gets the same answer, and from then on the address is the same in both or banned in both. -/
theorem check (h : Twin clock x y) (hnow : clock ≤ now) (maxPerSecond banDuration : Nat) :
    (checkState maxPerSecond banDuration now (x.getD (.default now))).2
        = (checkState maxPerSecond banDuration now (y.getD (.default now))).2 ∧
      Twin now (some (checkState maxPerSecond banDuration now (x.getD (.default now))).1)
        (some (checkState maxPerSecond banDuration now (y.getD (.default now))).1) := by
  cases h with
  | same => exact ⟨rfl, .same⟩
  | @gone state hwindow hban =>
      obtain ⟨hbar, hcurrent⟩ :=
        current_gone (fun hs => (hwindow hs).trans hnow) fun t ht => (hban t ht).trans hnow
      have heq : checkState maxPerSecond banDuration now state
          = checkState maxPerSecond banDuration now (.default now) := by
        rw [checkState_of_not_barred _ _ hbar, checkState_of_not_barred _ _ (by rfl), hcurrent, current_default]
      rw [Option.getD_none, Option.getD_some, heq]
      exact ⟨rfl, .same⟩
  | @banned state state' t hx hy =>
      rw [Option.getD_some, Option.getD_some]
      by_cases hlt : now < t
      · have hbar : barred now state = true := by
          unfold barred
          rw [hx]
          exact decide_eq_true hlt
        have hbar' : barred now state' = true := by
          unfold barred
          rw [hy]
          exact decide_eq_true hlt
        rw [checkState_of_barred hbar, checkState_of_barred hbar']
        exact ⟨rfl, .banned hx hy⟩
      · have heq : checkState maxPerSecond banDuration now state = checkState maxPerSecond banDuration now state' := by
          unfold checkState
          simp only [hx, hy, if_neg hlt]
        rw [heq]
        exact ⟨rfl, .same⟩

theorem isBanned (h : Twin clock x y) (hnow : clock ≤ now) :
    (x.any fun state => barred now state) = y.any fun state => barred now state := by
  cases h with
  | same => rfl
  | gone hwindow hban =>
      exact (current_gone (fun hs => (hwindow hs).trans hnow) fun t ht => (hban t ht).trans hnow).1.symm
  | banned hx hy =>
      show barred now _ = barred now _
      unfold barred
      rw [hx, hy]

/-- Cleaning up the first limiter keeps the addresses twins. -/
theorem cleanup (h : Twin clock x y) (hnow : clock ≤ now) : Twin now (x.filter (keeps now)) y := by
  have hpos : 0 < second := by decide
  cases hx : x with
  | none =>
      subst hx
      exact h.later hnow
  | some state =>
      cases hkeeps : keeps now state with
      | true =>
          rw [Option.filter_some, if_pos hkeeps, ← hx]
          exact h.later hnow
      | false =>
          rw [Option.filter_some, if_neg (by simp [hkeeps])]
          unfold keeps at hkeeps
          rw [Bool.or_eq_false_iff] at hkeeps
          obtain ⟨hrecent, hover⟩ := hkeeps
          have hrecent := of_decide_eq_false hrecent
          have hpast : ∀ t, state.bannedUntil = some t → t ≤ now := by
            intro t ht
            rw [ht] at hover
            exact Nat.not_lt.mp (of_decide_eq_false hover)
          subst hx
          cases h with
          | same => exact .gone (fun _ => by omega) hpast
          | banned hs hs' =>
              refine .gone (fun hnone => ?_) fun t ht => ?_
              · rw [hs'] at hnone
                cases hnone
              · obtain rfl := Option.some.inj (hs'.symm.trans ht)
                exact hpast _ hs

end Twin

/-- Two limiters of one configuration whose addresses are all twins. -/
structure Twins (clock : Nat) (x y : RateLimiter Ip) : Prop where
  max : x.maxPerSecond = y.maxPerSecond
  ban : x.banDuration = y.banDuration
  lookup : ∀ ip, Twin clock (x.states.lookup ip) (y.states.lookup ip)

namespace Twins

variable {clock now created : Nat} {x y : RateLimiter Ip}

/-- Where both store a state for an address, the others stay as they are. -/
theorem insert (h : Twins clock x y) (hnow : clock ≤ now) (ip : Ip) {state state' : RateLimitState}
    (hs : Twin now (some state) (some state')) :
    Twins now { x with states := x.states.insert ip state } { y with states := y.states.insert ip state' } where
  max := h.max
  ban := h.ban
  lookup ip' := by
    by_cases hip : ip' = ip
    · subst hip
      simp only [AList.lookup_insert]
      exact hs
    · simp only [AList.lookup_insert_ne hip]
      exact (h.lookup ip').later hnow

theorem check (h : Twins clock x y) (hnow : clock ≤ now) (ip : Ip) :
    (x.checkAndIncrement ip now now).2 = (y.checkAndIncrement ip now now).2 ∧
      Twins now (x.checkAndIncrement ip now now).1 (y.checkAndIncrement ip now now).1 := by
  have hstate := (h.lookup ip).check hnow x.maxPerSecond x.banDuration
  have hconfig : ∀ state, checkState x.maxPerSecond x.banDuration now state
      = checkState y.maxPerSecond y.banDuration now state := by
    intro state
    rw [h.max, h.ban]
  rw [hconfig ((y.states.lookup ip).getD _)] at hstate
  exact ⟨hstate.1, h.insert hnow ip hstate.2⟩

theorem manualBan (h : Twins clock x y) (hcreated : clock ≤ created) (hnow : created ≤ now) (ip : Ip) :
    Twins now (x.ban ip created now) (y.ban ip created now) := by
  refine h.insert (hcreated.trans hnow) ip (.banned (t := now + x.banDuration) rfl ?_)
  show some (now + y.banDuration) = some (now + x.banDuration)
  rw [h.ban]

theorem isBanned (h : Twins clock x y) (hnow : clock ≤ now) (ip : Ip) : x.isBanned ip now = y.isBanned ip now := by
  have heq : ∀ z : RateLimiter Ip, z.isBanned ip now = (z.states.lookup ip).any fun state => barred now state := by
    intro z
    unfold RateLimiter.isBanned
    cases z.states.lookup ip with
    | none => rfl
    | some state => rfl
  rw [heq x, heq y]
  exact (h.lookup ip).isBanned hnow

theorem cleanup (h : Twins clock x y) (hnow : clock ≤ now) : Twins now (x.cleanupExpired now) y where
  max := h.max
  ban := h.ban
  lookup ip := by
    show Twin now ((retain x.states (keeps now)).lookup ip) _
    rw [lookup_retain]
    exact (h.lookup ip).cleanup hnow

theorem later (h : Twins clock x y) (hnow : clock ≤ now) : Twins now x y :=
  ⟨h.max, h.ban, fun ip => (h.lookup ip).later hnow⟩

theorem answers_eq (ops : List (RateOp Ip)) (h : Twins clock x y) (horder : InOrder clock ops)
    (hinstant : ∀ op ∈ ops, op.Instant) : answers x ops = answers y (ops.filter fun op => !op.isCleanup) := by
  induction ops generalizing clock x y with
  | nil => rfl
  | cons op ops ih =>
      obtain ⟨hforward, horder⟩ := horder
      have hrest := fun op hop => hinstant op (List.mem_cons_of_mem _ hop)
      cases op with
      | checkAndIncrement ip now created =>
          obtain rfl : created = now := hinstant _ List.mem_cons_self
          obtain ⟨hanswer, hnext⟩ := h.check hforward.1 ip
          show (x.checkAndIncrement ip created created).2 :: _ = (y.checkAndIncrement ip created created).2 :: _
          rw [hanswer]
          exact congrArg _ (ih hnext horder hrest)
      | ban ip created now => exact ih (h.manualBan hforward.1 hforward.2 ip) horder hrest
      | isBanned ip now =>
          show x.isBanned ip now :: _ = y.isBanned ip now :: _
          rw [h.isBanned hforward ip]
          exact congrArg _ (ih (h.later hforward) horder hrest)
      | cleanupExpired now => exact ih (h.cleanup hforward) horder hrest

end Twins

/-- **Cleaning up is never noticed** where the clock does not advance between the two readings of one call: with every
call of `cleanup_expired` left out, all other calls answer the same, in whatever state the limiter was. What a cleanup
forgets is a window that is over and a ban that is, and a state made anew counts the same. -/
theorem cleanup_invisible (limiter : RateLimiter Ip) (clock : Nat) (ops : List (RateOp Ip)) (horder : InOrder clock ops)
    (hinstant : ∀ op ∈ ops, op.Instant) :
    answers limiter ops = answers limiter (ops.filter fun op => !op.isCleanup) :=
  Twins.answers_eq ops ⟨rfl, rfl, fun _ => .same⟩ horder hinstant

/-- A window that is over is forgotten, and the next message answered as if it had not been. -/
theorem cleanup_invisible_late : answers (.new 1 1) [RateOp.checkAndIncrement 7 0 0, .cleanupExpired 60000000000,
      .checkAndIncrement 7 60000000000 60000000000] =
    answers (.new 1 1) [RateOp.checkAndIncrement 7 0 0, .checkAndIncrement 7 60000000000 60000000000] := by
  refine cleanup_invisible (.new 1 1) 0 [.checkAndIncrement 7 0 0, .cleanupExpired 60000000000,
    .checkAndIncrement 7 60000000000 60000000000] ?_ ?_
  · simp [InOrder, RateOp.Forward, RateOp.last]
  · simp [RateOp.Instant]

/-- A tick inside the second call: the cleanup moves the new window by that tick, and the third message is too early. -/
example : answers (.new 1 1) [RateOp.checkAndIncrement 7 0 0, .cleanupExpired (60 * second),
      .checkAndIncrement 7 (60 * second) (60 * second + 1), .checkAndIncrement 7 (61 * second) (61 * second)]
    = [true, true, false] ∧
    answers (.new 1 1) [RateOp.checkAndIncrement 7 0 0,
      .checkAndIncrement 7 (60 * second) (60 * second + 1), .checkAndIncrement 7 (61 * second) (61 * second)]
    = [true, true, true] := by
  decide +kernel

end Cleanup

end WarmLogic.Net.Limiter
