import LambdaExecutor.Http.Client
import LambdaExecutor.Library.Query

/-!
# What a server reads off the URL

The query parameters are written behind the URL as they are: nothing is encoded,
only the first one gets a separator, and a query or a fragment which the URL has
already is not looked for.
-/

namespace LambdaExecutor.Http

open Query

def paramText (param : String × String) : Text := param.1.toList ++ '=' :: param.2.toList

theorem toList_foldl (params : List (String × String)) (url : String) :
    (params.foldl (fun url param => url ++ param.1 ++ "=" ++ param.2) url).toList =
      url.toList ++ params.flatMap paramText := by
  induction params generalizing url with
  | nil => simp
  | cons param params ih => simp [ih, paramText]

theorem toList_buildUrl_nil {request : Request} (h : request.query = []) :
    (buildUrlWithQueryParams request).toList = request.url.toList := by
  rw [buildUrlWithQueryParams, h]

theorem toList_buildUrl_cons {request : Request} {param : String × String}
    {params : List (String × String)} (h : request.query = param :: params) :
    (buildUrlWithQueryParams request).toList =
      request.url.toList ++ '?' :: '&' :: (paramText param ++ params.flatMap paramText) := by
  rw [buildUrlWithQueryParams, h]
  simp [toList_foldl, paramText]

-- ---------------------------------------------------------------------------
-- Several parameters
-- ---------------------------------------------------------------------------

/-- The characters that no part of a URL gives a meaning to. -/
def Unreserved (c : Char) : Prop := c.isAlphanum ∨ c ∈ ['-', '.', '_', '~']

instance (c : Char) : Decidable (Unreserved c) := inferInstanceAs (Decidable (_ ∨ _))

def Unreserved.Param (param : String × String) : Prop :=
  (∀ c ∈ param.1.toList, Unreserved c) ∧ ∀ c ∈ param.2.toList, Unreserved c

instance (param : String × String) : Decidable (Unreserved.Param param) :=
  inferInstanceAs (Decidable (_ ∧ _))

/-- The part before `?` is the URL, and the part after it has the pairs of the query. -/
def ReachesServer (request : Request) : Prop :=
  let parts := cut '?' (buildUrlWithQueryParams request).toList
  parts.1 = request.url.toList ∧
    (pairs (parts.2.getD [])).Perm
      (request.query.map fun param => (param.1.toList, param.2.toList))

instance (request : Request) : Decidable (ReachesServer request) :=
  inferInstanceAs (Decidable (_ ∧ _))

theorem Unreserved.Param.and_notMem {param : String × String} (h : Unreserved.Param param) :
    '&' ∉ paramText param := by
  have hand : ¬ Unreserved '&' := by decide
  simp only [paramText, List.mem_append, List.mem_cons, not_or]
  exact ⟨fun hmem => hand (h.1 _ hmem), by decide, fun hmem => hand (h.2 _ hmem)⟩

theorem Unreserved.Param.pairOf {param : String × String} (h : Unreserved.Param param) :
    pairOf (paramText param) = (param.1.toList, param.2.toList) := by
  have hkey : '=' ∉ param.1.toList := by
    intro hmem
    exact absurd (h.1 _ hmem) (by decide)
  rw [paramText, Query.pairOf, cut_append_cons hkey]
  rfl

theorem length_pairs_of_notMem {text : Text} (h : '&' ∉ text) : (pairs text).length ≤ 1 := by
  by_cases hne : text = []
  · simp [hne]
  · simp [pairs_of_notMem h hne]

/-- All the parameters reach the server exactly when there is one at most. -/
theorem every_param_reaches_server_iff (request : Request) (hurl : '?' ∉ request.url.toList)
    (hquery : ∀ param ∈ request.query, Unreserved.Param param) :
    ReachesServer request ↔ request.query.length ≤ 1 := by
  cases hparams : request.query with
  | nil =>
    refine iff_of_true ?_ (Nat.zero_le 1)
    rw [ReachesServer, toList_buildUrl_nil hparams, cut_of_notMem hurl, hparams]
    exact ⟨rfl, by simp⟩
  | cons param params =>
    rw [hparams] at hquery
    obtain ⟨hparam, hrest⟩ := List.forall_mem_cons.mp hquery
    have hpairs : pairs ('&' :: (paramText param ++ params.flatMap paramText)) =
        pairs (paramText param ++ params.flatMap paramText) := by
      simpa using pairs_append_cons [] (paramText param ++ params.flatMap paramText)
    rw [ReachesServer, toList_buildUrl_cons hparams, cut_append_cons hurl, hparams]
    dsimp only
    rw [Option.getD_some, hpairs]
    constructor
    · rintro ⟨-, hperm⟩
      -- No separator is left between the parameters, so they are one piece.
      have hand : '&' ∉ paramText param ++ params.flatMap paramText := by
        simp only [List.mem_append, List.mem_flatMap, not_or, not_exists, not_and]
        exact ⟨hparam.and_notMem, fun other hmem => (hrest other hmem).and_notMem⟩
      have hlength := hperm.length_eq
      rw [List.length_map] at hlength
      exact hlength ▸ length_pairs_of_notMem hand
    · intro hlength
      obtain rfl : params = [] := List.eq_nil_of_length_eq_zero (Nat.le_zero.mp
        (Nat.le_of_succ_le_succ hlength))
      have hne : paramText param ≠ [] := by simp [paramText]
      refine ⟨rfl, ?_⟩
      rw [List.flatMap_nil, List.append_nil, pairs_of_notMem hparam.and_notMem hne, hparam.pairOf]
      exact .refl _

def search : Request :=
  { Request.default with url := "http://shop/search", query := [("q", "tea"), ("page", "2")] }

theorem one_param_reaches_server : ReachesServer { search with query := [("q", "tea")] } := by
  have hletter : Unreserved 'q' ∧ Unreserved 't' ∧ Unreserved 'e' ∧ Unreserved 'a' := by decide
  refine (every_param_reaches_server_iff { search with query := [("q", "tea")] } (by decide)
    ?_).mpr (Nat.le_refl 1)
  simpa [Unreserved.Param] using hletter

/-- The second parameter becomes a part of the value of the first. -/
theorem second_param_lost : buildUrlWithQueryParams search = "http://shop/search?&q=teapage=2" ∧
    ¬ ReachesServer search := by
  constructor
  · decide
  · decide

-- ---------------------------------------------------------------------------
-- Any characters
-- ---------------------------------------------------------------------------

/-- The URL that is asked for is the base with the one pair behind its own. -/
def AddsOnly (url : String) (param : String × String) : Prop :=
  let base := parse url.toList
  parse (buildUrlWithQueryParams { Request.default with url, query := [param] }).toList =
    { base with pairs := base.pairs ++ [(param.1.toList, param.2.toList)] }

instance (url : String) (param : String × String) : Decidable (AddsOnly url param) :=
  inferInstanceAs (Decidable (_ = _))

/-- Neither a separator nor an escape, and in a key no `=` either. -/
structure Harmless (param : String × String) : Prop where
  key : ∀ c ∈ ['&', '=', '#'], c ∉ param.1.toList
  value : ∀ c ∈ ['&', '#'], c ∉ param.2.toList
  key_plain : ¬ HasEscape param.1.toList
  value_plain : ¬ HasEscape param.2.toList

variable {url : String} {param : String × String}

theorem toList_buildUrl_singleton (url : String) (param : String × String) :
    (buildUrlWithQueryParams { Request.default with url, query := [param] }).toList =
      url.toList ++ '?' :: '&' :: paramText param := by
  rw [toList_buildUrl_cons rfl, List.flatMap_nil, List.append_nil]

theorem parse_of_notMem {text : Text} (hfragment : '#' ∉ text) (hquery : '?' ∉ text) :
    parse text = { location := text, pairs := [], fragment := none } := by
  simp [parse, cut_of_notMem hfragment, cut_of_notMem hquery]

/-- What is added to the fragment of the URL belongs to it, and a fragment in what is added
is one. -/
theorem AddsOnly.no_fragment (h : AddsOnly url param) :
    '#' ∉ url.toList ++ '?' :: '&' :: paramText param := by
  have hfragment := congrArg Url.fragment h
  rw [toList_buildUrl_singleton] at hfragment
  intro hmem
  simp only [parse] at hfragment
  by_cases hurl : '#' ∈ url.toList
  · obtain ⟨before, after, heq, hbefore⟩ := List.eq_append_cons_of_mem hurl
    rw [heq, List.append_assoc, List.cons_append, cut_append_cons hbefore,
      cut_append_cons hbefore] at hfragment
    have hlength := congrArg List.length (Option.some.inj hfragment)
    simp only [List.length_append, List.length_cons] at hlength
    omega
  · obtain ⟨before, after, heq, hbefore⟩ := List.eq_append_cons_of_mem hmem
    rw [heq, cut_append_cons hbefore, cut_of_notMem hurl] at hfragment
    exact nomatch hfragment

theorem parse_added (hfragment : '#' ∉ url.toList ++ '?' :: '&' :: paramText param) :
    (parse (url.toList ++ '?' :: '&' :: paramText param)).pairs =
      (match (cut '?' url.toList).2 with
        | some query => decodedPairs (query ++ ['?'])
        | none => []) ++ decodedPairs (paramText param) := by
  simp only [parse, cut_of_notMem hfragment]
  by_cases hurl : '?' ∈ url.toList
  · obtain ⟨before, query, heq, hbefore⟩ := List.eq_append_cons_of_mem hurl
    rw [heq, List.append_assoc, List.cons_append, cut_append_cons hbefore, cut_append_cons hbefore]
    simp only [Option.getD_some]
    rw [← decodedPairs_append_cons]
    simp
  · rw [cut_append_cons hurl, cut_of_notMem hurl]
    simpa using decodedPairs_append_cons [] (paramText param)

theorem AddsOnly.no_query (h : AddsOnly url param) : '?' ∉ url.toList := by
  have hadded := parse_added h.no_fragment
  have hpairs := congrArg Url.pairs h
  rw [toList_buildUrl_singleton, hadded] at hpairs
  intro hurl
  obtain ⟨before, query, heq, hbefore⟩ := List.eq_append_cons_of_mem hurl
  have hfragment : '#' ∉ url.toList := fun hmem => h.no_fragment (List.mem_append_left _ hmem)
  have hbase : (parse url.toList).pairs = decodedPairs query := by
    simp only [parse, cut_of_notMem hfragment]
    rw [heq, cut_append_cons hbefore]
    rfl
  have hne : decodedPairs (paramText param) ≠ [] := decodedPairs_ne_nil (by simp [paramText])
  obtain ⟨others, last, hlast⟩ := (List.eq_nil_or_concat _).resolve_left hne
  dsimp only at hpairs
  rw [hbase, heq, cut_append_cons hbefore, hlast, List.concat_eq_append, ← List.append_assoc]
    at hpairs
  have hweight := congrArg weight (List.append_inj_left' hpairs rfl)
  rw [weight_append, weight_decodedPairs_concat (by decide) (by decide) (by decide)] at hweight
  omega

/-- A pair of any characters is added to the URL as it is, and nothing else is changed,
exactly when the URL has no query and no fragment and the pair is harmless. -/
theorem addsOnly_iff (url : String) (param : String × String) :
    AddsOnly url param ↔ ('?' ∉ url.toList ∧ '#' ∉ url.toList) ∧ Harmless param := by
  constructor
  · intro h
    have hquery := h.no_query
    have hfragment := h.no_fragment
    have hpairs := congrArg Url.pairs h
    rw [toList_buildUrl_singleton, parse_added hfragment, cut_of_notMem hquery] at hpairs
    simp only [List.mem_append, List.mem_cons, paramText, not_or] at hfragment
    obtain ⟨hurl, -, -, hkey, -, hvalue⟩ := hfragment
    rw [parse_of_notMem hurl hquery, List.nil_append, List.nil_append, paramText,
      decodedPairs_eq_singleton_iff] at hpairs
    obtain ⟨⟨hand, hequals, hplain⟩, hand', hplain'⟩ := hpairs
    exact ⟨⟨hquery, hurl⟩, by simp [hand, hequals, hkey], by simp [hand', hvalue], hplain, hplain'⟩
  · rintro ⟨⟨hquery, hurl⟩, hkey, hvalue, hplain, hplain'⟩
    simp only [List.forall_mem_cons] at hkey hvalue
    have hfragment : '#' ∉ url.toList ++ '?' :: '&' :: paramText param := by
      simp [paramText, hurl, hkey, hvalue]
    have hpairs := parse_added hfragment
    rw [cut_of_notMem hquery, List.nil_append, paramText,
      (decodedPairs_eq_singleton_iff _ _).mpr ⟨⟨hkey.1, hkey.2.1, hplain⟩, hvalue.1, hplain'⟩]
      at hpairs
    have hlocation : (parse (url.toList ++ '?' :: '&' :: paramText param)).location =
        url.toList := by simp [parse, cut_of_notMem hfragment, cut_append_cons hquery]
    rw [AddsOnly, toList_buildUrl_singleton, parse_of_notMem hurl hquery, Url.mk.injEq]
    exact ⟨hlocation, hpairs, congrArg Prod.snd (cut_of_notMem hfragment)⟩

/-- A value from the caller of the script makes a parameter of its own. -/
theorem value_injects_parameter :
    (parse (buildUrlWithQueryParams { Request.default with
      url := "http://users/find", query := [("name", "x&role=admin")] }).toList).pairs =
        [("name".toList, "x".toList), ("role".toList, "admin".toList)] ∧
    ¬ AddsOnly "http://users/find" ("name", "x&role=admin") := by
  constructor
  · decide
  · decide

end LambdaExecutor.Http
