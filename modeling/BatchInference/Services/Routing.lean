import BatchInference.Services.CreateBatch
import Mathlib.Data.List.MinMax

/-!
# Model routing

`resolve_model` for any catalog. A request without a model gets the configured default model
if its rank fits the tier, and also if the provider's catalog does not have it at all.
-/

namespace BatchInference

namespace Routing

/-- For each provider its models with their ranks. -/
abbrev Catalog := List (String × List (String × Int))

/-- `MODEL_CATALOG.get(provider) or {}` -/
def modelsOf (catalog : Catalog) (provider : String) : List (String × Int) :=
  (catalog.lookup provider).getD []

structure ModelChoice where
  provider : String
  model : String
  costTier : String
  reason : String
  deriving DecidableEq, Repr

/-- The settings that it reads. -/
structure Defaults where
  defaultProvider : String
  defaultModel : String
  defaultCostPreference : String

def costTierMaxRank : List (String × Int) := [("economy", 2), ("standard", 5), ("premium", 99)]

/-- `str.strip` -/
def stripStr (s : String) : String :=
  String.ofList ((s.toList.dropWhile isUnicodeSpace).rdropWhile isUnicodeSpace)

/-- `x or y or default`, for strings that may be missing. -/
def orElse (x : Option String) (y default : String) : String :=
  (truthy x).getD ((truthy (some y)).getD default)

/-- `pref`; `lower` is `str.lower`. -/
def resolvedPref (lower : String → String) (settings : Defaults)
    (costPreference : Option String) : String :=
  let pref := stripStr (lower (orElse costPreference settings.defaultCostPreference "economy"))
  if (costTierMaxRank.lookup pref).isSome then pref else "economy"

def resolvedProvider (settings : Defaults) (provider : Option String) : String :=
  stripStr (orElse provider settings.defaultProvider "mock")

def maxRank (pref : String) : Int := (costTierMaxRank.lookup pref).getD 0

/-- The catalog of the resolved provider. -/
def resolvedModels (catalog : Catalog) (settings : Defaults) (provider : Option String) :
    List (String × Int) :=
  modelsOf catalog (resolvedProvider settings provider)

/-- The maximum rank of the resolved tier. -/
def resolvedMaxRank (lower : String → String) (settings : Defaults)
    (costPreference : Option String) : Int :=
  maxRank (resolvedPref lower settings costPreference)

/-- `_cheapest_for_provider` -/
def cheapestForProvider (models : List (String × Int)) (maxRank : Int) : Option String :=
  let eligible := models.filter fun m => m.2 ≤ maxRank
  (eligible.insertionSort fun x y => x.2 < y.2 ∨ (x.2 = y.2 ∧ x.1 ≤ y.1)).head?.map (·.1)

/-- `min(catalog.items(), key=lambda x: x[1])`: the first model of the least rank. -/
def leastRank (models : List (String × Int)) : Option (String × Int) :=
  models.find? fun m => models.all fun n => m.2 ≤ n.2

def resolveModel (lower : String → String) (catalog : Catalog) (settings : Defaults)
    (provider model costPreference : Option String) : ModelChoice :=
  let pref := resolvedPref lower settings costPreference
  let provider := resolvedProvider settings provider
  let models := modelsOf catalog provider
  let choice (model reason : String) : ModelChoice := { provider, model, costTier := pref, reason }
  match (truthy model).filter (fun m => stripStr m ≠ "") with
  | some m => choice (stripStr m) "explicit_model_override"
  | none =>
    let defaultModel := stripStr settings.defaultModel
    if defaultModel ≠ "" ∧ (models.lookup defaultModel).all (· ≤ maxRank pref) then
      choice defaultModel "settings_default_model"
    else match truthy (cheapestForProvider models (maxRank pref)) with
      | some cheapest => choice cheapest s!"cost_preference_{pref}"
      | none => match leastRank models with
        | some m => choice m.1 "cheapest_available"
        | none =>
          choice
            (if settings.defaultModel = "" then "openai-gpt-oss-20b" else settings.defaultModel)
            "fallback_default"

/-- The model of this choice is one of the provider's, if it has any, and its rank is within
the tier, if a model of the provider's is. -/
def RoutesInside (lower : String → String) (catalog : Catalog) (settings : Defaults)
    (provider model costPreference : Option String) : Prop :=
  let models := resolvedModels catalog settings provider
  let tier := resolvedMaxRank lower settings costPreference
  let choice := resolveModel lower catalog settings provider model costPreference
  choice.provider = resolvedProvider settings provider ∧
    (models ≠ [] → ∃ rank, (choice.model, rank) ∈ models ∧
      ((∃ m ∈ models, m.2 ≤ tier) → rank ≤ tier))

variable {lower : String → String} {catalog : Catalog} {settings : Defaults}
  {provider model costPreference : Option String} {models : List (String × Int)} {tier : Int}

/-- The cheapest model is one within the tier, and there is one if any model is. -/
theorem cheapestForProvider_cases (models : List (String × Int)) (tier : Int) :
    (∃ m ∈ models, m.2 ≤ tier ∧ cheapestForProvider models tier = some m.1) ∨
      (∀ m ∈ models, tier < m.2) ∧ cheapestForProvider models tier = none := by
  have hperm := (models.filter fun m => m.2 ≤ tier).perm_insertionSort
    fun x y => x.2 < y.2 ∨ (x.2 = y.2 ∧ x.1 ≤ y.1)
  unfold cheapestForProvider
  cases hsorted : (models.filter fun m => m.2 ≤ tier).insertionSort
      fun x y => x.2 < y.2 ∨ (x.2 = y.2 ∧ x.1 ≤ y.1) with
  | nil =>
    rw [hsorted] at hperm
    refine .inr ⟨fun m hm => ?_, by simp [hsorted]⟩
    have hnone := List.filter_eq_nil_iff.mp hperm.symm.eq_nil m hm
    simpa using hnone
  | cons m rest =>
    have hmem := hperm.subset (hsorted ▸ List.mem_cons_self)
    obtain ⟨hm, htier⟩ := List.mem_filter.mp hmem
    exact .inl ⟨m, hm, by simpa using htier, by simp [hsorted]⟩

theorem exists_leastRank (hne : models ≠ []) :
    ∃ m ∈ models, (∀ n ∈ models, m.2 ≤ n.2) ∧ leastRank models = some m := by
  have hargmin : models.argmin (·.2) ≠ none := by simpa using hne
  obtain ⟨least, hleast⟩ := Option.ne_none_iff_exists'.mp hargmin
  have hsome : (leastRank models).isSome = true := by
    have hle : ∀ n ∈ models, least.2 ≤ n.2 := fun n hn => List.le_of_mem_argmin hn hleast
    exact List.find?_isSome.mpr ⟨least, List.argmin_mem hleast, by simpa using hle⟩
  obtain ⟨m, hm⟩ := Option.isSome_iff_exists.mp hsome
  have hall := List.find?_some hm
  exact ⟨m, List.mem_of_find?_eq_some hm, by simpa using hall, hm⟩

/-- Of a catalog that is not empty one of the two searches finds a model, within the tier if
there is one within it. -/
theorem search_inside (hne : models ≠ []) (tier : Int) :
    ∃ m ∈ models, ((∃ m' ∈ models, m'.2 ≤ tier) → m.2 ≤ tier) ∧
      (truthy (cheapestForProvider models tier) = some m.1 ∨
        truthy (cheapestForProvider models tier) = none ∧ leastRank models = some m) := by
  cases htruthy : truthy (cheapestForProvider models tier) with
  | some name =>
    have hname := (Option.filter_eq_some_iff.mp htruthy).1
    rcases cheapestForProvider_cases models tier with ⟨m, hm, htier, hfound⟩ | ⟨-, hnone⟩
    · obtain rfl := Option.some.inj (hfound.symm.trans hname)
      exact ⟨m, hm, fun _ => htier, .inl rfl⟩
    · rw [hnone] at hname
      cases hname
  | none =>
    obtain ⟨m, hm, hleast, hfound⟩ := exists_leastRank hne
    refine ⟨m, hm, ?_, .inr ⟨rfl, hfound⟩⟩
    rintro ⟨m', hm', htier⟩
    exact (hleast m' hm').trans htier

theorem provider_resolveModel :
    (resolveModel lower catalog settings provider model costPreference).provider =
      resolvedProvider settings provider := by
  unfold resolveModel
  split
  · rfl
  · dsimp only
    split
    · rfl
    · split
      · rfl
      · split <;> rfl

/-- Whether a blank model is replaced by the default one. -/
def takesDefault (settings : Defaults) (models : List (String × Int)) (tier : Int) : Prop :=
  stripStr settings.defaultModel ≠ "" ∧
    (models.lookup (stripStr settings.defaultModel)).all (· ≤ tier) = true

theorem blank_model (hmodel : ∀ m ∈ model, stripStr m = "") :
    (truthy model).filter (fun m => stripStr m ≠ "") = none := by
  rw [Option.filter_eq_none_iff]
  intro m hm
  have := hmodel m (Option.filter_eq_some_iff.mp hm).1
  simpa using this

theorem resolveModel_default (hmodel : ∀ m ∈ model, stripStr m = "")
    (h : takesDefault settings (resolvedModels catalog settings provider)
      (resolvedMaxRank lower settings costPreference)) :
    (resolveModel lower catalog settings provider model costPreference).model =
      stripStr settings.defaultModel := by
  rw [resolveModel, blank_model hmodel]
  exact congrArg ModelChoice.model (if_pos h)

theorem resolveModel_search (hmodel : ∀ m ∈ model, stripStr m = "")
    (h : ¬ takesDefault settings (resolvedModels catalog settings provider)
      (resolvedMaxRank lower settings costPreference))
    (hne : resolvedModels catalog settings provider ≠ []) :
    ∃ m ∈ resolvedModels catalog settings provider,
      (resolveModel lower catalog settings provider model costPreference).model = m.1 ∧
      ((∃ m' ∈ resolvedModels catalog settings provider,
        m'.2 ≤ resolvedMaxRank lower settings costPreference) →
          m.2 ≤ resolvedMaxRank lower settings costPreference) := by
  obtain ⟨m, hm, hinside, hfound⟩ :=
    search_inside hne (resolvedMaxRank lower settings costPreference)
  refine ⟨m, hm, ?_, hinside⟩
  rw [resolveModel, blank_model hmodel]
  refine (congrArg ModelChoice.model (if_neg h)).trans ?_
  unfold resolvedModels resolvedMaxRank at hfound
  rcases hfound with hcheapest | ⟨hcheapest, hmin⟩
  · simp only [hcheapest]
  · simp only [hcheapest, hmin]

/-- Without a model in the request, the choice stays inside the catalog and the tier if and
only if the provider has no models, or there is no default model, or the provider has it. -/
theorem routes_inside_iff (hmodel : ∀ m ∈ model, stripStr m = "") :
    RoutesInside lower catalog settings provider model costPreference ↔
      resolvedModels catalog settings provider = [] ∨ stripStr settings.defaultModel = "" ∨
        ∃ rank, (stripStr settings.defaultModel, rank) ∈
          resolvedModels catalog settings provider := by
  rw [RoutesInside, provider_resolveModel]
  constructor
  · rintro ⟨-, hinside⟩
    by_contra! hout
    obtain ⟨hne, hdefault, hnot⟩ := hout
    have hlookup : (resolvedModels catalog settings provider).lookup
        (stripStr settings.defaultModel) = none := by
      rw [List.lookup_eq_none_iff]
      intro m hm
      by_contra heq
      have hname : stripStr settings.defaultModel = m.1 := by simpa using heq
      exact hnot m.2 (hname ▸ hm)
    obtain ⟨rank, hmem, -⟩ := hinside hne
    rw [resolveModel_default hmodel ⟨hdefault, by simp [hlookup]⟩] at hmem
    exact hnot rank hmem
  · intro h
    refine ⟨rfl, fun hne => ?_⟩
    by_cases hdefault : takesDefault settings (resolvedModels catalog settings provider)
        (resolvedMaxRank lower settings costPreference)
    · rw [resolveModel_default hmodel hdefault]
      obtain ⟨rank, hrank⟩ := (h.resolve_left hne).resolve_left hdefault.1
      cases hlookup : (resolvedModels catalog settings provider).lookup
          (stripStr settings.defaultModel) with
      | none =>
        have hne' := List.lookup_eq_none_iff.mp hlookup _ hrank
        simp at hne'
      | some found =>
        obtain ⟨before, after, hsplit, -⟩ := List.lookup_eq_some_iff.mp hlookup
        have hfits := hdefault.2
        rw [hlookup, Option.all_some, decide_eq_true_eq] at hfits
        exact ⟨found, by simp [hsplit], fun _ => hfits⟩
    · obtain ⟨m, hm, hchoice, hinside⟩ := resolveModel_search hmodel hdefault hne
      rw [hchoice]
      exact ⟨m.2, hm, hinside⟩

/-- The catalog of the source. -/
def modelCatalog : Catalog :=
  [("mock", [("mock-1", 0)]),
    ("digitalocean",
      [("openai-gpt-oss-20b", 1), ("openai-gpt-oss-120b", 2), ("openai-gpt-4o-mini", 2),
        ("deepseek-3.2", 6), ("llama3.3-70b-instruct", 8)]),
    ("openai", [("gpt-4o-mini", 2), ("gpt-4o", 7), ("gpt-4.1-mini", 2), ("gpt-4.1", 7)]),
    ("anthropic",
      [("claude-3-5-haiku-latest", 2), ("claude-3-5-sonnet-latest", 6),
        ("claude-sonnet-4-20250514", 7)]),
    ("openai_compatible", [("default", 3)])]

/-- The settings' own defaults. -/
def shippedDefaults : Defaults where
  defaultProvider := "mock"
  defaultModel := "openai-gpt-oss-20b"
  defaultCostPreference := "economy"

theorem routes_inside_iff_blank :
    RoutesInside id modelCatalog shippedDefaults (some "digitalocean") (some " ") none := by
  refine (routes_inside_iff ?_).mpr (.inr (.inr ⟨1, by decide +kernel⟩))
  rintro _ ⟨⟩
  decide

/-- With the shipped settings a request for Anthropic without a model is sent there with a
model of DigitalOcean's, although a model of its own is within the tier. -/
theorem anthropic_gets_openai_model :
    (resolveModel id modelCatalog shippedDefaults (some "anthropic") none none).provider =
      "anthropic" ∧
    (resolveModel id modelCatalog shippedDefaults (some "anthropic") none none).model =
      "openai-gpt-oss-20b" ∧
    (∃ m ∈ resolvedModels modelCatalog shippedDefaults (some "anthropic"),
      m.2 ≤ resolvedMaxRank id shippedDefaults none) ∧
    ¬ RoutesInside id modelCatalog shippedDefaults (some "anthropic") none none := by
  have hmodel : (resolveModel id modelCatalog shippedDefaults (some "anthropic") none
      none).model = "openai-gpt-oss-20b" := by decide +kernel
  refine ⟨by decide +kernel, hmodel, by decide +kernel, fun h => ?_⟩
  obtain ⟨rank, hmem, -⟩ := h.2 (by decide +kernel)
  rw [hmodel] at hmem
  have hmodels : resolvedModels modelCatalog shippedDefaults (some "anthropic") =
      [("claude-3-5-haiku-latest", 2), ("claude-3-5-sonnet-latest", 6),
        ("claude-sonnet-4-20250514", 7)] := by decide +kernel
  simp [hmodels] at hmem

end Routing

end BatchInference
