import BatchInference.Library.Machine
import Mathlib.Algebra.Order.Field.Rat
import Mathlib.Data.Rat.Floor

/-!
# The shared token bucket

The two scripts on a bucket's hash, over exact rationals, and the key that holds the hash:
each write gives it an hour to live.
-/

namespace BatchInference

open Machine

/-- The fields `tokens` and `ts`; both scripts' writes leave both or none of them. -/
structure Level where
  tokens : ℚ
  ts : ℚ
  deriving DecidableEq, Repr

structure Hash where
  pauseUntil : Option ℚ := none
  level : Option Level := none
  deriving DecidableEq, Repr

structure Reply where
  granted : Bool
  waitMs : ℤ
  deriving DecidableEq, Repr

/-- `tonumber(redis.call('HGET', key, 'pause_until') or '0')` -/
def Hash.paused (hash : Hash) : ℚ := hash.pauseUntil.getD 0

/-- The script `TOKEN_BUCKET_LUA`: the hash that it writes, if it does, and its reply. -/
def tokenBucketLua (capacity rate requested now : ℚ) (hash : Hash) : Option Hash × Reply :=
  let pauseUntil := hash.paused
  if pauseUntil > now then
    (none, { granted := false, waitMs := ⌈(pauseUntil - now) * 1000⌉ })
  else
    let level := hash.level.getD { tokens := capacity, ts := now }
    let elapsed := max 0 (now - level.ts)
    let tokens := min capacity (level.tokens + elapsed * rate)
    if tokens < requested then
      let need := requested - tokens
      let wait := need / rate
      (some { hash with level := some { tokens, ts := now } },
        { granted := false, waitMs := ⌈wait * 1000⌉ })
    else
      let tokens := tokens - requested
      (some { hash with level := some { tokens, ts := now } }, { granted := true, waitMs := 0 })

/-- The script `PAUSE_LUA`. -/
def pauseLua (untilTs : ℚ) (hash : Hash) : Hash := { hash with pauseUntil := some untilTs }

/-- A key of Redis, with the time of its last `EXPIRE`. -/
structure Key where
  hash : Hash := {}
  written : ℚ := 0
  deriving DecidableEq, Repr

/-- The seconds that `EXPIRE` gives. -/
def ttl : ℚ := 3600

/-- What is executed on a key. The rate limiter's `pause` adds the seconds to its own clock;
the server may drop a key that has outlived its time. -/
inductive Op where
  | acquire (capacity rate requested now : ℚ)
  | pause (seconds now : ℚ)
  | expire (now : ℚ)
  deriving DecidableEq, Repr

namespace Op

def now : Op → ℚ
  | acquire _ _ _ now | pause _ now | expire now => now

/-- The rate at which the operation refills the bucket. -/
def rate : Op → ℚ
  | acquire _ rate _ _ => rate
  | pause .. | expire _ => 0

/-- `limiter.acquire(bucket, rate=r, capacity=r)` with its default `tokens` -/
def call (r now : ℚ) : Op := acquire r r 1 now

@[simp] theorem now_call (r now : ℚ) : (call r now).now = now := rfl

@[simp] theorem rate_call (r now : ℚ) : (call r now).rate = r := rfl

end Op

/-- The key after an operation, and whether the operation was a call that got its tokens. -/
def Key.step (key : Key) : Op → Key × Bool
  | .acquire capacity rate requested now =>
    let (written, reply) := tokenBucketLua capacity rate requested now key.hash
    (match written with
      | some hash => { hash, written := now }
      | none => key,
      reply.granted)
  | .pause seconds now =>
    ({ hash := pauseLua (now + max seconds 0) key.hash, written := now }, false)
  | .expire now => (if key.written + ttl ≤ now then { key with hash := {} } else key, false)

/-- The tokens that a call finds. -/
def Hash.refilled (hash : Hash) (capacity rate now : ℚ) : ℚ :=
  let level := hash.level.getD { tokens := capacity, ts := now }
  min capacity (level.tokens + max 0 (now - level.ts) * rate)

theorem tokenBucketLua_eq (capacity rate requested now : ℚ) (hash : Hash) :
    tokenBucketLua capacity rate requested now hash =
      let tokens := hash.refilled capacity rate now
      if now < hash.paused then (none, ⟨false, ⌈(hash.paused - now) * 1000⌉⟩)
      else if tokens < requested then
        (some { hash with level := some ⟨tokens, now⟩ },
          ⟨false, ⌈(requested - tokens) / rate * 1000⌉⟩)
      else (some { hash with level := some ⟨tokens - requested, now⟩ }, ⟨true, 0⟩) := rfl

/-- The key after `HMSET` and `EXPIRE` of a call. -/
def Key.write (key : Key) (tokens now : ℚ) : Key :=
  { hash := { key.hash with level := some { tokens, ts := now } }, written := now }

@[simp] theorem Key.level_write (key : Key) (tokens now : ℚ) :
    (key.write tokens now).hash.level = some ⟨tokens, now⟩ := rfl

/-- A call on a paused key changes nothing. Any other call writes the level, and is granted
if the key has the tokens. -/
theorem Key.acquire_cases (key : Key) (capacity rate requested now : ℚ) :
    let tokens := key.hash.refilled capacity rate now
    now < key.hash.paused ∧ key.step (.acquire capacity rate requested now) = (key, false) ∨
      key.hash.paused ≤ now ∧ (tokens < requested ∧
          key.step (.acquire capacity rate requested now) = (key.write tokens now, false) ∨
        requested ≤ tokens ∧ key.step (.acquire capacity rate requested now) =
          (key.write (tokens - requested) now, true)) := by
  simp only [Key.step, tokenBucketLua_eq]
  split_ifs with hpaused htokens
  · exact .inl ⟨hpaused, rfl⟩
  · exact .inr ⟨not_lt.mp hpaused, .inl ⟨htokens, rfl⟩⟩
  · exact .inr ⟨not_lt.mp hpaused, .inr ⟨not_lt.mp htokens, rfl⟩⟩

/-- A key without a pause, as a call at `ts` leaves it. -/
def Key.holding (tokens ts : ℚ) : Key := { hash := { level := some { tokens, ts } }, written := ts }

theorem Key.step_holding {tokens ts : ℚ} (h : 0 ≤ now) :
    (Key.holding tokens ts).step (.acquire capacity rate requested now) =
      let found := min capacity (tokens + max 0 (now - ts) * rate)
      if found < requested then (.holding found now, false)
      else (.holding (found - requested) now, true) := by
  rcases (Key.holding tokens ts).acquire_cases capacity rate requested now with
    ⟨hpaused, -⟩ | ⟨-, ⟨hfound, hstep⟩ | ⟨hfound, hstep⟩⟩
  · exact absurd h hpaused.not_ge
  · exact hstep.trans (if_pos hfound).symm
  · exact hstep.trans (if_neg hfound.not_gt).symm

theorem Key.step_fresh (h : 0 ≤ now) :
    Key.step {} (.acquire capacity rate requested now) =
      (Key.holding capacity now).step (.acquire capacity rate requested now) := by
  have hfull : ({} : Hash).refilled capacity rate now = capacity := by simp [Hash.refilled]
  have hfound : min capacity (capacity + max 0 (now - now) * rate) = capacity := by simp
  rw [Key.step_holding h, hfound]
  rcases Key.acquire_cases {} capacity rate requested now with
    ⟨hpaused, -⟩ | ⟨-, ⟨hshort, hstep⟩ | ⟨henough, hstep⟩⟩
  · exact absurd h hpaused.not_ge
  · rw [hfull] at hshort hstep
    exact hstep.trans (if_pos hshort).symm
  · rw [hfull] at henough hstep
    exact hstep.trans (if_neg henough.not_gt).symm

end BatchInference
