import BatchInference.RateLimit.Bucket

/-!
# Waiting for tokens

The loop of `acquire` asks the script until it grants the tokens or the next hint does not fit
before the deadline. The whole hint is compared with the deadline, but at most a second of it
is slept, so the remaining time alone does not bound the loop: a hint counts for at least
0.01 s, and each round takes that much of it. The clocks and the replies are what the host
brings.
-/

namespace BatchInference

/-- The key and the arguments that every call of the script gets, the last one apart. -/
structure ScriptArgs where
  key : String
  cap : ℚ
  rate : ℚ
  tokens : ℚ
  deriving DecidableEq, Repr

/-- What the loop finds in its `n`-th round: `time.time()`, the last argument of the script, its
reply, and `time.monotonic()` after a refusal. -/
structure Host where
  time : ℕ → ℚ
  script : ℕ → ScriptArgs → (now : ℚ) → Reply
  monotonic : ℕ → ℚ

inductive Ending where
  | returned
  | timeoutError (text : String)
  deriving DecidableEq, Repr

/-- A call of `acquire` that has ended. -/
structure Acquired where
  calls : ℕ
  sleeps : List ℚ
  ended : Ending
  deriving DecidableEq, Repr

/-- One more round before the others, with its sleep. -/
def Acquired.cons (pause : ℚ) (rest : Acquired) : Acquired :=
  { rest with calls := rest.calls + 1, sleeps := pause :: rest.sleeps }

/-- `wait_s` -/
def waitSeconds (waitMs : ℤ) : ℚ := max (waitMs / 1000) (1 / 100)

def sleepSeconds (waitMs : ℤ) : ℚ := min (waitSeconds waitMs) 1

namespace Host

variable (host : Host) (bucketKey : String) (args : ScriptArgs) (deadline : ℚ)

/-- The reply that the `n`-th round gets. -/
def reply (n : ℕ) : Reply := host.script n args (host.time n)

/-- The rounds from the `n`-th on; `none` when they are not over by then. -/
def loop : (fuel n : ℕ) → Option Acquired
  | 0, _ => none
  | fuel + 1, n =>
    let reply := host.reply args n
    if reply.granted then some { calls := 1, sleeps := [], ended := .returned }
    else if deadline < host.monotonic n + waitSeconds reply.waitMs then
      some
        { calls := 1, sleeps := []
          ended := .timeoutError s!"Rate limit wait exceeded for {bucketKey}" }
    else
      (loop fuel (n + 1)).map (Acquired.cons (sleepSeconds reply.waitMs))

end Host

/-- What a limiter with this prefix asks the script for. -/
def scriptArgs (keyPrefix bucketKey : String) (rate : ℚ) (capacity : Option ℚ) (tokens : ℚ) :
    ScriptArgs where
  key := s!"{keyPrefix}:{bucketKey}"
  cap := capacity.getD (max rate tokens)
  rate
  tokens

/-- `TokenBucketRateLimiter.acquire`; `start` is the clock when the deadline is set. -/
def acquire (host : Host) (start : ℚ) (keyPrefix bucketKey : String) (rate : ℚ)
    (capacity : Option ℚ) (tokens maxWait : ℚ) (fuel : ℕ) : Option Acquired :=
  if rate ≤ 0 then some { calls := 0, sleeps := [], ended := .returned }
  else
    host.loop bucketKey (scriptArgs keyPrefix bucketKey rate capacity tokens) (start + maxWait)
      fuel 0

/-! ## The rounds -/

theorem le_waitSeconds (waitMs : ℤ) : 1 / 100 ≤ waitSeconds waitMs := le_max_right ..

theorem le_sleepSeconds (waitMs : ℤ) : 1 / 100 ≤ sleepSeconds waitMs :=
  le_min (le_waitSeconds waitMs) (by norm_num)

theorem sleepSeconds_le (waitMs : ℤ) : sleepSeconds waitMs ≤ waitSeconds waitMs := min_le_left ..

namespace Host

variable {host : Host} {bucketKey : String} {args : ScriptArgs} {deadline start : ℚ} {n b : ℕ}

/-- `time.monotonic()` does not go back, and a sleep takes the time that it is asked for. -/
structure Steady (host : Host) (start : ℚ) (args : ScriptArgs) : Prop where
  start_le : start ≤ host.monotonic 0
  slept : ∀ n, (host.reply args n).granted = false →
    host.monotonic n + sleepSeconds (host.reply args n).waitMs ≤ host.monotonic (n + 1)

/-- The loop has ended with round `last`, the first one that was granted or came too late. -/
structure EndsAt (host : Host) (bucketKey : String) (args : ScriptArgs) (n last : ℕ)
    (acquired : Acquired) : Prop where
  calls : acquired.calls + n = last + 1
  refused : ∀ k, n ≤ k → k < last → (host.reply args k).granted = false
  ended : acquired.ended =
    if (host.reply args last).granted then .returned
    else .timeoutError s!"Rate limit wait exceeded for {bucketKey}"

theorem EndsAt.cons {last : ℕ} {rest : Acquired} {pause : ℚ}
    (hrefused : (host.reply args n).granted = false)
    (h : host.EndsAt bucketKey args (n + 1) last rest) :
    host.EndsAt bucketKey args n last (.cons pause rest) where
  calls := by
    have := h.calls
    simp only [Acquired.cons]
    omega
  refused k hn hk := by
    rcases Nat.eq_or_lt_of_le hn with rfl | hlt
    · exact hrefused
    · exact h.refused k hlt hk
  ended := h.ended

/-- From round `n` on, the loop ends within `b` more rounds, and sleeps no longer than what is
left. -/
def EndsWithin (host : Host) (bucketKey : String) (args : ScriptArgs) (deadline : ℚ) (n b : ℕ) :
    Prop :=
  ∃ acquired last, (∀ fuel, b + 1 ≤ fuel →
      host.loop bucketKey args deadline fuel n = some acquired) ∧
    last ≤ n + b ∧ host.EndsAt bucketKey args n last acquired ∧
    acquired.sleeps.sum ≤ max 0 (deadline - host.monotonic n)

/-- The round is granted, or its hint does not fit before the deadline. -/
def Stops (host : Host) (args : ScriptArgs) (deadline : ℚ) (n : ℕ) : Prop :=
  (host.reply args n).granted = true ∨
    deadline < host.monotonic n + waitSeconds (host.reply args n).waitMs

theorem Stops.endsWithin (h : host.Stops args deadline n) :
    host.EndsWithin bucketKey args deadline n b := by
  refine ⟨{ calls := 1, sleeps := [], ended := if (host.reply args n).granted then
    .returned else .timeoutError s!"Rate limit wait exceeded for {bucketKey}" }, n, ?_,
    Nat.le_add_right n b, ⟨Nat.add_comm 1 n, fun k hn hk => absurd hk hn.not_gt, rfl⟩,
    le_max_left ..⟩
  intro fuel hfuel
  obtain ⟨fuel, rfl⟩ := Nat.exists_eq_add_of_le' (Nat.le_of_add_left_le hfuel)
  cases hgranted : (host.reply args n).granted with
  | true => simp [loop, hgranted]
  | false =>
    have hlate := h.resolve_left (by simp [hgranted])
    simp [loop, hgranted, hlate]

/-- With less than `b + 1` times 0.01 s left the loop ends within `b` more rounds. -/
theorem endsWithin (hclock : host.Steady start args)
    (hleft : deadline < host.monotonic n + (b + 1) * (1 / 100)) :
    host.EndsWithin bucketKey args deadline n b := by
  induction b generalizing n with
  | zero =>
    have hfloor := le_waitSeconds (host.reply args n).waitMs
    refine Stops.endsWithin (.inr ?_)
    push_cast at hleft
    linarith
  | succ b ih =>
    by_cases hstop : host.Stops args deadline n
    · exact hstop.endsWithin
    obtain ⟨hrefused, hfits⟩ := not_or.mp hstop
    rw [Bool.not_eq_true] at hrefused
    have hslept := hclock.slept n hrefused
    have hpause := le_sleepSeconds (host.reply args n).waitMs
    have hcapped := sleepSeconds_le (host.reply args n).waitMs
    -- a round takes at least 0.01 s off what is left
    obtain ⟨rest, last, hloop, hlast, hends, hsum⟩ := ih (n := n + 1) (by
      push_cast at hleft
      linarith)
    refine ⟨.cons (sleepSeconds (host.reply args n).waitMs) rest, last,
      fun fuel hfuel => ?_, by omega, hends.cons hrefused, ?_⟩
    · obtain ⟨fuel, rfl⟩ := Nat.exists_eq_add_of_le' (Nat.le_of_add_left_le hfuel)
      simp [loop, hrefused, hfits, hloop fuel (by omega)]
    · rw [not_lt] at hfits
      rw [Acquired.cons, List.sum_cons]
      refine le_max_of_le_right ?_
      rcases le_max_iff.mp hsum with hsum | hsum <;> linarith

end Host

/-! ## The whole call -/

/-- The tokens come a second late. -/
def refusedOnce : Host where
  time n := n
  script n _ _ :=
    if n = 0 then { granted := false, waitMs := 1000 } else { granted := true, waitMs := 0 }
  monotonic n := n

end BatchInference
