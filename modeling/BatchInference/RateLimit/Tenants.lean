import BatchInference.Library.Lines
import BatchInference.RateLimit.Windows

/-!
# One Redis for all upstream accounts

Workers with any API keys, models and providers execute their scripts on one Redis, each on the
key that `rate_limit_key` makes of them. The keys of different accounts differ, so that each
account and model has a bucket of its own, in which nothing is seen of the others' calls and
pauses.
-/

namespace BatchInference

open Machine

/-! ## Providers and their keys -/

/-- What `build_providers` registers, with the API key. -/
inductive Provider where
  | openai (apiKey : String)
  | anthropic (apiKey : String)
  | openaiCompatible (apiKey : String)
  | digitalocean (apiKey : String)
  | mock
  deriving DecidableEq, Repr

namespace Provider

def name : Provider → String
  | openai _ => "openai"
  | anthropic _ => "anthropic"
  | openaiCompatible _ => "openai_compatible"
  | digitalocean _ => "digitalocean"
  | mock => "mock"

/-- `hashlib.sha256(self.api_key.encode()).hexdigest()[:12]`; `OpenAICompatibleProvider` is given
`api_key or "none"`, and MockProvider has a constant in its place. -/
def keyHash (hexdigest : String → String) : Provider → String
  | openai apiKey | anthropic apiKey | digitalocean apiKey =>
    String.ofList ((hexdigest apiKey).toList.take 12)
  | openaiCompatible apiKey =>
    String.ofList ((hexdigest (if apiKey = "" then "none" else apiKey)).toList.take 12)
  | mock => "local"

/-- `rate_limit_key` -/
def rateLimitKey (hexdigest : String → String) (provider : Provider) (model : String) : String :=
  s!"{provider.name}:{model}:{provider.keyHash hexdigest}"

end Provider

/-- `TokenBucketRateLimiter._key`, with the default prefix -/
def limiterKey (bucketKey : String) : String := s!"rl:{bucketKey}"

/-- A provider and a model: what a request is sent to. -/
structure Target where
  provider : Provider
  model : String
  deriving DecidableEq, Repr

namespace Target

def key (hexdigest : String → String) (target : Target) : String :=
  limiterKey (target.provider.rateLimitKey hexdigest target.model)

/-- The same provider's model with the same account, as far as the hash tells. -/
def Shares (hexdigest : String → String) (a b : Target) : Prop :=
  a.provider.name = b.provider.name ∧ a.model = b.model ∧
    a.provider.keyHash hexdigest = b.provider.keyHash hexdigest

instance (hexdigest : String → String) (a b : Target) : Decidable (a.Shares hexdigest b) :=
  inferInstanceAs (Decidable (_ ∧ _))

end Target

variable {hexdigest : String → String}

theorem colon_notMem_name (provider : Provider) : ':' ∉ provider.name.toList := by
  cases provider <;> simp [Provider.name]

/-- A hash has hexadecimal digits only. -/
theorem colon_notMem_keyHash (hhex : ∀ apiKey, ':' ∉ (hexdigest apiKey).toList)
    (provider : Provider) : ':' ∉ (provider.keyHash hexdigest).toList := by
  have digits (apiKey : String) :
      ':' ∉ (String.ofList ((hexdigest apiKey).toList.take 12)).toList := by
    rw [String.toList_ofList]
    exact fun h => hhex apiKey (List.mem_of_mem_take h)
  cases provider with
  | openai apiKey | anthropic apiKey | digitalocean apiKey => exact digits apiKey
  | openaiCompatible apiKey => exact digits _
  | mock => simp [Provider.keyHash]

/-- The two separators are found again, one from each end, whatever the model's name is. -/
theorem key_eq_iff (hhex : ∀ apiKey, ':' ∉ (hexdigest apiKey).toList) {a b : Target} :
    a.key hexdigest = b.key hexdigest ↔ a.Shares hexdigest b := by
  constructor
  · intro h
    have hchars := congrArg String.toList h
    have hparts : a.provider.name.toList ++ ':' :: (a.model.toList ++
        ':' :: (a.provider.keyHash hexdigest).toList) =
          b.provider.name.toList ++ ':' :: (b.model.toList ++
            ':' :: (b.provider.keyHash hexdigest).toList) := by
      simpa [Target.key, limiterKey, Provider.rateLimitKey, toString] using hchars
    obtain ⟨hname, hrest⟩ :=
      Lines.append_separator_inj (colon_notMem_name _) (colon_notMem_name _) hparts
    have hreversed := congrArg List.reverse hrest
    simp only [List.reverse_append, List.reverse_cons, List.append_assoc,
      List.singleton_append] at hreversed
    have hlast (provider : Provider) : ':' ∉ (provider.keyHash hexdigest).toList.reverse := by
      simpa using colon_notMem_keyHash hhex provider
    obtain ⟨hhash, hmodel⟩ := Lines.append_separator_inj (hlast _) (hlast _) hreversed
    exact ⟨String.toList_inj.mp hname, String.toList_inj.mp (List.reverse_inj.mp hmodel),
      String.toList_inj.mp (List.reverse_inj.mp hhash)⟩
  · rintro ⟨hname, hmodel, hhash⟩
    rw [Target.key, Target.key, Provider.rateLimitKey, Provider.rateLimitKey, hname, hmodel, hhash]

/-! ## Redis -/

/-- The calls of all workers on one Redis. -/
def redisStep (hexdigest : String → String) (store : String → Key) (call : Target × Op) :
    (String → Key) × Bool :=
  keyed Key.step store (call.1.key hexdigest, call.2)

/-- No key exists yet. -/
def emptyRedis : String → Key := fun _ => {}

/-- The operations that go to the bucket of `target`. -/
def opsOf (hexdigest : String → String) (target : Target) (calls : List (Target × Op)) : List Op :=
  (calls.filter fun call => target.Shares hexdigest call.1).map Prod.snd

/-- What is granted to requests for `target`. -/
def grantsFor (hexdigest : String → String) (target : Target)
    (calls : List ((Target × Op) × Bool)) : ℕ :=
  calls.countP fun p => target.Shares hexdigest p.1.1 ∧ p.2

theorem opsOf_eq (hhex : ∀ apiKey, ':' ∉ (hexdigest apiKey).toList) (target : Target)
    (calls : List (Target × Op)) : opsOf hexdigest target calls =
      inputsOf (target.key hexdigest) (calls.map fun call => (call.1.key hexdigest, call.2)) := by
  rw [opsOf, inputsOf, List.filter_map, List.map_map]
  refine congrArg _ (List.filter_congr fun call _ => ?_)
  simp only [Function.comp_apply, decide_eq_decide]
  rw [← key_eq_iff hhex, eq_comm]

/-- A bucket answers as if there were no other. -/
theorem replies_alone (hhex : ∀ apiKey, ':' ∉ (hexdigest apiKey).toList) (target : Target)
    (store : String → Key) (calls : List (Target × Op)) :
    ((trace (redisStep hexdigest) store calls).filter fun p =>
        target.Shares hexdigest p.1.1).map (fun p => (p.1.2, p.2)) =
      trace Key.step (store (target.key hexdigest)) (opsOf hexdigest target calls) := by
  have hmap : trace (keyed Key.step) store (calls.map fun call => (call.1.key hexdigest, call.2)) =
      (trace (redisStep hexdigest) store calls).map
        fun p => ((p.1.1.key hexdigest, p.1.2), p.2) := trace_map _
  rw [opsOf_eq hhex, ← trace_keyed, hmap, List.filter_map, List.map_map]
  refine congrArg _ (List.filter_congr fun p _ => ?_)
  simp only [Function.comp_apply, decide_eq_decide]
  rw [← key_eq_iff hhex, eq_comm]

/-- What a sound bucket grants from `t` to `u`. -/
theorem countP_granted_le {key : Key} {ops : List Op} {R t u : ℚ} (hR : 0 ≤ R)
    (hsound : key.Sound t) (hops : Between Op.now (fun op => op.Paid ∧ op.rate ≤ R) t u ops) :
    ((trace Key.step key ops).countP (·.2) : ℚ) ≤ R + R * (u - t) := by
  have hclocked : Clocked Key.step Op.now (fun op => op.Paid ∧ op.rate ≤ R) Key.Sound :=
    clocked fun _ h => h.1
  have hpaid := (credit hR).countP_le hclocked hsound hops
  have hleft := (hclocked.after hsound hops).refilled_nonneg hR
  have hstart : key.hash.refilled R R t ≤ R := min_le_left _ _
  linarith

/-- Whatever the workers of other accounts do, a bucket answers as if there were no other, and
in any window it grants at most the largest rate of the calls on it in the window, and as much
again for each second. -/
theorem targets_apart (hhex : ∀ apiKey, ':' ∉ (hexdigest apiKey).toList)
    {calls : List (Target × Op)} (hsorted : calls.Pairwise fun a b => a.2.now ≤ b.2.now)
    (hpaid : ∀ call ∈ calls, call.2.Paid) (target : Target) {i j : ℕ} (hij : i ≤ j)
    (hj : j < calls.length) :
    ((trace (redisStep hexdigest) emptyRedis calls).filter fun p =>
        target.Shares hexdigest p.1.1).map (fun p => (p.1.2, p.2)) =
      trace Key.step {} (opsOf hexdigest target calls) ∧
    let R := largestRate (opsOf hexdigest target (window i (j + 1) calls))
    (grantsFor hexdigest target
        (window i (j + 1) (trace (redisStep hexdigest) emptyRedis calls)) : ℚ) ≤
      R + R * (calls[j].2.now - calls[i].2.now) := by
  refine ⟨replies_alone hhex target _ calls, ?_⟩
  intro R
  have hbefore : Between (fun call : Target × Op => call.2.now) (fun call => call.2.Paid)
      calls[0].2.now calls[i].2.now (calls.take i) :=
    .window hsorted (Nat.zero_le i) (by omega) (by omega) fun call h =>
      hpaid call (List.mem_of_mem_take h)
  have hwindow : Between (fun call : Target × Op => call.2.now)
      (fun call => call ∈ window i (j + 1) calls ∧ call.2.Paid)
      calls[i].2.now calls[j].2.now (window i (j + 1) calls) :=
    .window hsorted hij hj le_rfl fun call h =>
      ⟨h, hpaid call (List.mem_of_mem_take (List.mem_of_mem_drop h))⟩
  have hops : Between Op.now (fun op => op.Paid ∧ op.rate ≤ R) calls[i].2.now calls[j].2.now
      (opsOf hexdigest target (window i (j + 1) calls)) :=
    hwindow.map_filter fun call hcall hshares => ⟨hcall.2, rate_le_largestRate <|
      List.mem_map_of_mem (List.mem_filter.mpr ⟨hcall.1, hshares⟩)⟩
  -- the bucket at the start of the window
  have hafter : after (redisStep hexdigest) emptyRedis (calls.take i) (target.key hexdigest) =
      after Key.step {} (opsOf hexdigest target (calls.take i)) := by
    have hkeyed : after (keyed Key.step) emptyRedis
        ((calls.take i).map fun call => (call.1.key hexdigest, call.2)) (target.key hexdigest) =
        after Key.step {} (opsOf hexdigest target (calls.take i)) := by
      rw [after_keyed, ← opsOf_eq hhex]
      rfl
    rw [← hkeyed, after, after, List.foldl_map]
    rfl
  have hsound : Key.Sound calls[i].2.now
      (after (redisStep hexdigest) emptyRedis (calls.take i) (target.key hexdigest)) := by
    rw [hafter]
    exact (clocked fun _ h => h).after (by simp [Key.Sound])
      (hbefore.map_filter fun call hcall _ => hcall)
  have hcount : grantsFor hexdigest target
      (window i (j + 1) (trace (redisStep hexdigest) emptyRedis calls)) =
      (trace Key.step
        (after (redisStep hexdigest) emptyRedis (calls.take i) (target.key hexdigest))
        (opsOf hexdigest target (window i (j + 1) calls))).countP (·.2) := by
    rw [window_trace (by omega), ← replies_alone hhex, List.countP_map, List.countP_filter,
      grantsFor]
    refine List.countP_congr fun p _ => ?_
    simp [and_comm]
  rw [hcount]
  exact countP_granted_le (largestRate_nonneg _) hsound hops

/-- A digest of two keys. -/
def digestOfTwo (apiKey : String) : String :=
  if apiKey = "a" then "0a0a0a0a0a0a0a" else "0b0b0b0b0b0b0b"

/-- The second account is paused while the first one calls. -/
def twoAccounts : List (Target × Op) :=
  [(⟨.openai "a", "gpt-4o"⟩, .call 2 0), (⟨.openai "b", "gpt-4o"⟩, .pause 60 0),
    (⟨.openai "b", "gpt-4o"⟩, .call 2 0), (⟨.openai "a", "gpt-4o"⟩, .call 2 1),
    (⟨.openai "a", "gpt-4o:mini"⟩, .call 5 1)]

theorem targets_apart_twoAccounts :
    twoAccounts.Pairwise (fun a b => a.2.now ≤ b.2.now) ∧ (∀ call ∈ twoAccounts, call.2.Paid) ∧
    grantsFor digestOfTwo ⟨.openai "a", "gpt-4o"⟩
      (window 0 5 (trace (redisStep digestOfTwo) emptyRedis twoAccounts)) = 2 ∧
    (grantsFor digestOfTwo ⟨.openai "a", "gpt-4o"⟩
      (window 0 5 (trace (redisStep digestOfTwo) emptyRedis twoAccounts)) : ℚ) ≤
      largestRate (opsOf digestOfTwo ⟨.openai "a", "gpt-4o"⟩ (window 0 5 twoAccounts)) +
        largestRate (opsOf digestOfTwo ⟨.openai "a", "gpt-4o"⟩ (window 0 5 twoAccounts)) *
          (1 - 0) := by
  have hhex : ∀ apiKey, ':' ∉ (digestOfTwo apiKey).toList := by
    intro apiKey
    unfold digestOfTwo
    split <;> decide
  have hsorted : twoAccounts.Pairwise fun a b => a.2.now ≤ b.2.now := by
    simp [twoAccounts, Op.call, Op.now]
  have hpaid : ∀ call ∈ twoAccounts, call.2.Paid := by simp [twoAccounts, Op.call, Op.Paid]
  exact ⟨hsorted, hpaid, by decide +kernel,
    (targets_apart hhex hsorted hpaid ⟨.openai "a", "gpt-4o"⟩ (i := 0) (j := 4) (by decide)
      (by decide)).2⟩

end BatchInference
