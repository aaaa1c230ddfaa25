import EntityQuery.Proofs.Language.Relaid
import EntityQuery.Proofs.Settings.Section
import EntityQuery.Settings.Load

/-! # Layers of settings

Settings are read from three trees laid over one another. What stands at a path of the result is what the uppermost
tree with something at this path has there, as long as the trees have nothing but tables on the way (`Node.at?_over`).
So each setting comes from its own variable, else from the document, else from what holds by default, whatever the
other setting comes from, and only the value that counts has to be of the right type (`load_layers`). -/

namespace EntityQuery.Settings
open EntityQuery (Settings)
open EntityQuery.Language

/-! ### Paths in trees -/

/-- What stands at the end of a path. -/
def Node.at? : Node → List String → Option Node
  | n, [] => some n
  | .table ms, name :: path => (ms.lookup name).bind fun n => n.at? path
  | _, _ :: _ => none

/-- On the way along a path a tree has only tables, and no name twice in them. The path may end early. -/
def Node.Clear : Node → List String → Prop
  | _, [] => True
  | .table ms, name :: path => (ms.map Prod.fst).Nodup ∧ ∀ n ∈ ms.lookup name, n.Clear path
  | _, _ :: _ => False

/-- What is left of two things where each may be missing. -/
def over? : Option Node → Option Node → Option Node
  | some upper, some lower => some (upper.over lower)
  | upper, lower => upper.or lower

@[simp] theorem over?_none (upper : Option Node) : over? upper none = upper := by
  cases upper <;> rfl

@[simp] theorem none_over? (lower : Option Node) : over? none lower = lower := by
  cases lower <;> rfl

section Members
variable {us ls : Members} {name : String}

theorem lookup_membersOver (h : (us.map Prod.fst).Nodup) :
    (membersOver us ls).lookup name = over? (us.lookup name) (ls.lookup name) := by
  induction us generalizing ls with
  | nil => rw [membersOver, List.lookup_nil, none_over?]
  | cons u us ih =>
    obtain ⟨n, u⟩ := u
    obtain ⟨hn, hus⟩ := List.nodup_cons.mp h
    rw [membersOver, ih hus, lookup_put]
    by_cases hname : name = n
    · subst hname
      rw [if_pos rfl, lookup_eq_none hn, none_over?, List.lookup_cons_self]
      cases ls.lookup name <;> rfl
    · rw [if_neg hname, List.lookup_cons, beq_eq_false_iff_ne.mpr hname]

theorem nodup_membersOver (h : (ls.map Prod.fst).Nodup) : ((membersOver us ls).map Prod.fst).Nodup := by
  induction us generalizing ls with
  | nil => rwa [membersOver]
  | cons u us ih =>
    rw [membersOver]
    exact ih (nodup_put h)

end Members

section Over
variable {upper lower : Node} {path : List String}

/-- The upper tree wins where it has something. -/
theorem Node.at?_over (h : upper.Clear path) :
    (upper.over lower).at? path = over? (upper.at? path) (lower.at? path) := by
  induction path generalizing upper lower with
  | nil => rfl
  | cons name path ih =>
    cases upper with
    | table us =>
      obtain ⟨hnames, hnext⟩ := h
      cases lower with
      | table ls =>
        rw [Node.over, Node.at?, Node.at?, Node.at?, lookup_membersOver hnames]
        cases hu : us.lookup name with
        | none => simp
        | some u =>
          have hu := hnext u hu
          cases ls.lookup name with
          | none => simp [over?_none]
          | some l => exact ih hu
      | _ => simp [Node.over, Node.at?]
    | _ => exact h.elim

theorem Node.Clear.over (hu : upper.Clear path) (hl : lower.Clear path) : (upper.over lower).Clear path := by
  induction path generalizing upper lower with
  | nil => trivial
  | cons name path ih =>
    cases upper with
    | table us =>
      cases lower with
      | table ls =>
        rw [Node.over]
        refine ⟨nodup_membersOver hl.1, fun n hn => ?_⟩
        rw [lookup_membersOver hu.1] at hn
        cases hus : us.lookup name with
        | none =>
          rw [hus, none_over?] at hn
          exact hl.2 n hn
        | some u =>
          rw [hus] at hn
          cases hls : ls.lookup name with
          | none =>
            rw [hls] at hn
            exact hu.2 n (hus.trans hn)
          | some l =>
            rw [hls] at hn
            obtain rfl := Option.some.inj hn
            exact ih (hu.2 u hus) (hl.2 l hls)
      | _ => exact hl.elim
    | _ => exact hu.elim

end Over

section AtPath
variable {value : Node} {path other : List String}

/-- Neither of two paths is a beginning of the other one. -/
def Apart (path other : List String) : Prop :=
  ¬path <+: other ∧ ¬other <+: path

instance : Decidable (Apart path other) :=
  inferInstanceAs (Decidable (_ ∧ _))

theorem Apart.tail {name : String} (h : Apart (name :: path) (name :: other)) : Apart path other :=
  ⟨fun hp => h.1 (List.prefix_cons_inj name |>.mpr hp), fun hp => h.2 (List.prefix_cons_inj name |>.mpr hp)⟩

theorem Node.at?_atPath_self : (value.atPath path).at? path = some value := by
  induction path with
  | nil => rfl
  | cons name path ih => rw [Node.atPath, Node.at?, List.lookup_cons_self, Option.bind_some, ih]

theorem Node.clear_atPath_self : (value.atPath path).Clear path := by
  induction path with
  | nil => trivial
  | cons name path ih =>
    refine ⟨List.pairwise_singleton _ _, fun n hn => ?_⟩
    rw [List.lookup_cons_self] at hn
    obtain rfl := Option.some.inj hn
    exact ih

/-- A value at one path leaves all paths that stand apart from it free. -/
theorem Node.free_atPath (h : Apart path other) :
    (value.atPath path).Clear other ∧ (value.atPath path).at? other = none := by
  induction path generalizing other with
  | nil => exact absurd List.nil_prefix h.1
  | cons name path ih =>
    cases other with
    | nil => exact absurd List.nil_prefix h.2
    | cons name' other =>
      by_cases hname : name' = name
      · subst hname
        obtain ⟨hclear, hnone⟩ := ih h.tail
        refine ⟨⟨List.pairwise_singleton _ _, fun n hn => ?_⟩, ?_⟩
        · rw [List.lookup_cons_self] at hn
          obtain rfl := Option.some.inj hn
          exact hclear
        · rw [Node.atPath, Node.at?, List.lookup_cons_self, Option.bind_some, hnone]
      · have hnone : [(name, value.atPath path)].lookup name' = none := by
          rw [List.lookup_cons, beq_eq_false_iff_ne.mpr hname, List.lookup_nil]
        refine ⟨⟨List.pairwise_singleton _ _, fun n hn => ?_⟩, ?_⟩
        · rw [hnone] at hn
          cases hn
        · rw [Node.atPath, Node.at?, hnone, Option.bind_none]

end AtPath

/-! ### Variables -/

namespace Variable

/-- The value of the first variable that sets a path. -/
def setting? (environment : List (String × String)) (path : List String) : Option Node :=
  (environment.find? fun v => path? v.1 = some path).map fun v => value v.2

/-- At most one variable sets a path, and the others set nothing on the way to it or behind it. -/
structure SetOnce (environment : List (String × String)) (path : List String) : Prop where
  once : environment.countP (fun v => path? v.1 = some path) ≤ 1
  apart : ∀ v ∈ environment, ∀ other ∈ path? v.1, other = path ∨ Apart other path

/-- One more variable laid over a tree. -/
def lay (lower : Node) (v : String × String) : Node :=
  match path? v.1 with
  | some path => ((value v.2).atPath path).over lower
  | none => lower

theorem tree_eq (environment : List (String × String)) : tree environment = environment.foldl lay (.table []) := rfl

theorem setting?_eq_none {environment : List (String × String)} {path : List String}
    (h : ∀ v ∈ environment, path? v.1 ≠ some path) : setting? environment path = none := by
  rw [setting?, List.find?_eq_none.mpr fun v hv => by simpa using h v hv, Option.map_none]

theorem setOnce_of_unset {environment : List (String × String)} {path : List String}
    (h : ∀ v ∈ environment, path? v.1 = none) : SetOnce environment path := by
  have hzero : environment.countP (fun v => path? v.1 = some path) = 0 :=
    List.countP_eq_zero.mpr fun v hv => by simp [h v hv]
  refine ⟨hzero ▸ Nat.zero_le 1, fun v hv other hother => ?_⟩
  rw [h v hv] at hother
  cases hother

theorem setting?_cons (v : String × String) (environment : List (String × String)) (path : List String) :
    setting? (v :: environment) path =
      if path? v.1 = some path then some (value v.2) else setting? environment path := by
  by_cases h : path? v.1 = some path <;> simp [setting?, h]

/-- A variable lays its value at its own path and nothing at the paths apart from it. -/
theorem at?_lay {lower : Node} {path : List String} {v : String × String} (hlower : lower.Clear path)
    (h : ∀ other ∈ path? v.1, other = path ∨ Apart other path) : (lay lower v).Clear path ∧
      (lay lower v).at? path = over? (if path? v.1 = some path then some (value v.2) else none) (lower.at? path) := by
  unfold lay
  split
  · rename_i other hother
    rcases h other hother with rfl | hapart
    · rw [if_pos hother, Node.at?_over Node.clear_atPath_self, Node.at?_atPath_self]
      exact ⟨Node.clear_atPath_self.over hlower, rfl⟩
    · obtain ⟨hclear, hnone⟩ := @Node.free_atPath (value v.2) _ _ hapart
      have hne : path? v.1 ≠ some path := by
        intro hpath
        obtain rfl := Option.some.inj (hother.symm.trans hpath)
        exact hapart.1 List.prefix_rfl
      rw [if_neg hne, Node.at?_over hclear, hnone]
      exact ⟨hclear.over hlower, rfl⟩
  · rename_i hnone
    rw [hnone, if_neg (Option.some_ne_none path).symm, none_over?]
    exact ⟨hlower, rfl⟩

theorem foldl_lay {environment : List (String × String)} {path : List String} (h : SetOnce environment path)
    {lower : Node} (hlower : lower.Clear path) : (environment.foldl lay lower).Clear path ∧
      (environment.foldl lay lower).at? path = over? (setting? environment path) (lower.at? path) := by
  induction environment generalizing lower with
  | nil => exact ⟨hlower, (none_over? _).symm⟩
  | cons v environment ih =>
    obtain ⟨honce, hapart⟩ := h
    rw [List.countP_cons] at honce
    obtain ⟨hclear, hlay⟩ := at?_lay hlower (hapart v List.mem_cons_self)
    obtain ⟨hclear, hrest⟩ := ih ⟨by omega, fun v hv => hapart v (List.mem_cons_of_mem _ hv)⟩ hclear
    refine ⟨hclear, ?_⟩
    rw [List.foldl_cons, hrest, hlay, setting?_cons]
    by_cases hpath : path? v.1 = some path
    · -- No variable behind this one sets the path, so nothing is laid over its value.
      rw [if_pos (decide_eq_true hpath)] at honce
      have hzero : environment.countP (fun v => path? v.1 = some path) = 0 := by omega
      have hnone : setting? environment path = none :=
        setting?_eq_none fun v hv => by simpa using List.countP_eq_zero.mp hzero v hv
      rw [hnone, none_over?, if_pos hpath]
    · rw [if_neg hpath, if_neg hpath, none_over?]

theorem at?_tree {environment : List (String × String)} {path : List String} (h : SetOnce environment path)
    (hpath : path ≠ []) : (tree environment).Clear path ∧ (tree environment).at? path = setting? environment path := by
  obtain ⟨name, rest, rfl⟩ := List.exists_cons_of_ne_nil hpath
  have hempty : (Node.table []).Clear (name :: rest) := ⟨List.nodup_nil, fun n hn => by cases hn⟩
  obtain ⟨hclear, hat⟩ := foldl_lay h hempty
  rw [tree_eq]
  exact ⟨hclear, hat.trans (over?_none _)⟩

/-! ### The case of names -/

theorem isBlank_toLower (c : Char) : Text.isBlank c.toLower = Text.isBlank c := by
  by_cases h : c.isAlpha = true
  · have hword : Grammar.isWordChar c = true := isWordChar_iff.mpr (by have := isAlpha_iff.mp h; omega)
    rw [isBlank_of_isWordChar hword, isBlank_of_isWordChar ((isWordChar_toLower c).trans hword)]
  · rw [eq_of_toLower (Char.toLower_toLower_eq_toLower c) (Bool.eq_false_iff.mpr h)]

theorem trim_lower (cs : List Char) : Text.trim (cs.map Char.toLower) = (Text.trim cs).map Char.toLower := by
  have hblank : Text.isBlank ∘ Char.toLower = Text.isBlank := funext isBlank_toLower
  rw [Text.trim, Text.trim, List.dropWhile_map, ← List.map_reverse, List.dropWhile_map, ← List.map_reverse, hblank]

theorem pointed_lower (cs : List Char) : pointed (cs.map Char.toLower) = (pointed cs).map Char.toLower := by
  have underscore : ∀ {c : Char}, c.toLower = '_' → c = '_' := fun hc => eq_of_toLower hc rfl
  fun_induction pointed cs with
  | case1 cs ih => rw [List.map_cons, List.map_cons, List.map_cons, ← ih]; rfl
  | case2 c cs h ih =>
    rw [List.map_cons, List.map_cons, ← ih, pointed]
    intro tail hc htail
    obtain ⟨c', tail, rfl, hc', -⟩ := List.map_eq_cons_iff.mp htail
    exact h tail (underscore hc) (by rw [underscore hc'])
  | case3 => rfl

/-- A variable is told by its name in any case. -/
theorem path?_recased {name name' : String} (h : Recased name.toList name'.toList) : path? name' = path? name := by
  have htrim : (Text.trim name'.toList).map Char.toLower = (Text.trim name.toList).map Char.toLower := by
    rw [← trim_lower, ← trim_lower, h]
  simp only [path?, Text.equalIgnoringCase, ← pointed_lower, ← trim_lower, List.map_take, List.map_drop, htrim]

end Variable

/-! ### The two settings -/

/-- The paths of the settings of the cache: whether it is used, and for how many seconds. -/
def enabledPath : List String := ["cache", "enabled"]

def secondsPath : List String := ["cache", "ttl_secs"]

section Reading
variable {n : Node} {upper lower : Option Node}

/-- Only tables are changed by what they are laid over, and they stay tables. -/
theorem Node.over_eq (u l : Node) : u.over l = u ∨ ∃ us ms, u = .table us ∧ u.over l = .table ms := by
  cases u with
  | table us =>
    cases l with
    | table ls => exact Or.inr ⟨us, _, rfl, by rw [Node.over]⟩
    | _ => exact Or.inl (by simp [Node.over])
  | _ => exact Or.inl (by simp [Node.over])

/-- Two tables laid over one another are merged, but a reader that makes no difference between tables does not see it:
what it reads of a layered value is what it reads of the upper one. -/
theorem over?_congr {α : Type} (read : Option Node → α)
    (h : ∀ ms ms' : Members, read (some (.table ms)) = read (some (.table ms'))) :
    read (over? upper lower) = read (upper.or lower) := by
  cases upper with
  | none => rw [none_over?, Option.none_or]
  | some u =>
    cases lower with
    | none => rw [over?_none, Option.or_none]
    | some l =>
      rw [Option.some_or, over?]
      obtain hu | ⟨us, ms, rfl, hu⟩ := u.over_eq l
      · rw [hu]
      · rw [hu, h ms us]

theorem over?_over?_congr {lowest : Node} {α : Type} (read : Option Node → α)
    (h : ∀ ms ms' : Members, read (some (.table ms)) = read (some (.table ms'))) :
    read (over? upper (over? lower (some lowest))) = read (some ((upper.or lower).getD lowest)) := by
  rw [over?_congr read h]
  cases upper with
  | none => rw [Option.none_or, Option.none_or, over?_congr read h, Option.or_some]
  | some u => rfl

/-- The settings of a tree in which the way to them is clear. -/
theorem ofNode_of_clear (h : n.Clear enabledPath) : ofNode n =
    (cacheOfParts (n.at? enabledPath) (n.at? secondsPath)).map fun cache => { cache } := by
  cases n with
  | table ms =>
    rw [ofNode, enabledPath, secondsPath, Node.at?, Node.at?]
    cases hcache : ms.lookup "cache" with
    | none => rfl
    | some node =>
      have hnode := h.2 node hcache
      cases node with
      | table c =>
        simp only [Option.bind_some, Node.at?, Option.bind_fun_some]
        rfl
      | _ => exact hnode.elim
  | _ => exact h.elim

theorem boolean?_eq_ok_iff {byDefault b : Bool} : boolean? byDefault (some n) = .ok b ↔ n = .boolean b := by
  cases n <;> simp [boolean?]

theorem boolean?_eq_error_iff {byDefault : Bool} {e : SettingsError} :
    boolean? byDefault (some n) = .error e ↔ e = .unreadable ∧ ∀ b, n ≠ .boolean b := by
  cases n <;> simp [boolean?, eq_comm]

theorem seconds?_eq_ok_iff {byDefault seconds : UInt64} :
    seconds? byDefault (some n) = .ok seconds ↔ n = .integer seconds.toNat := by
  cases n with
  | integer n =>
    rw [seconds?, Node.integer.injEq]
    have hlt : seconds.toNat < UInt64.size := seconds.toNat_lt
    constructor
    · intro h
      split at h
      · rename_i hn
        rw [← Except.ok.inj h, UInt64.toNat_ofNat_of_lt' (by omega)]
        omega
      · cases h
    · rintro rfl
      rw [if_pos ⟨by omega, by omega⟩, Int.toNat_natCast, UInt64.ofNat_toNat]
  | _ => simp [seconds?]

theorem seconds?_eq_error_iff {byDefault : UInt64} {e : SettingsError} :
    seconds? byDefault (some n) = .error e ↔ e = .unreadable ∧ ∀ seconds : UInt64, n ≠ .integer seconds.toNat := by
  simp only [ne_eq, ← @seconds?_eq_ok_iff n byDefault]
  cases n with
  | integer n =>
    rw [seconds?]
    split <;> simp [eq_comm]
  | _ => simp [seconds?, eq_comm]

section Parts
variable {enabled seconds : Node}

theorem cacheOfParts_eq (enabled seconds : Option Node) : cacheOfParts enabled seconds =
    (boolean? true enabled).bind fun enabled =>
      (seconds? 300 seconds).bind fun ttlSeconds => .ok { enabled, ttlSeconds } := rfl

theorem cacheOfParts_eq_ok_iff {s : CacheSettings} : cacheOfParts (some enabled) (some seconds) = .ok s ↔
    enabled = .boolean s.enabled ∧ seconds = .integer s.ttlSeconds.toNat := by
  simp only [cacheOfParts_eq, bind_eq_ok_iff, boolean?_eq_ok_iff, seconds?_eq_ok_iff]
  constructor
  · rintro ⟨e, he, t, ht, hs⟩
    obtain rfl := Except.ok.inj hs
    exact ⟨he, ht⟩
  · rintro ⟨he, ht⟩
    exact ⟨_, he, _, ht, rfl⟩

theorem cacheOfParts_eq_error_iff {e : SettingsError} : cacheOfParts (some enabled) (some seconds) = .error e ↔
    e = .unreadable ∧ ((∀ b, enabled ≠ .boolean b) ∨ ∀ n : UInt64, seconds ≠ .integer n.toNat) := by
  simp only [cacheOfParts_eq, bind_eq_error_iff, boolean?_eq_error_iff, seconds?_eq_error_iff, boolean?_eq_ok_iff,
    reduceCtorEq, and_false, exists_false, or_false, and_or_left]
  by_cases h : ∃ b, enabled = .boolean b
  · obtain ⟨b, hb⟩ := h
    simp [hb]
  · simp +contextual [not_exists.mp h]

end Parts

end Reading

/-- A document of the section of the cache alone, with a word for each setting. -/
theorem read_cacheSection {enabled seconds : List Char} {e t : Node} (he : Document.IsWord enabled e)
    (ht : Document.IsWord seconds t) :
    Document.read (String.ofList (Document.textOf (Document.sectionLines "cache"
      [("enabled", enabled, e), ("ttl_secs", seconds, t)]))) =
        some [("cache", .table [("enabled", e), ("ttl_secs", t)])] := by
  have hkeys : ["enabled", "ttl_secs"].Nodup := by decide
  have hcache : Document.IsBare "cache" := ⟨by decide, List.all_eq_true.mp rfl⟩
  have henabled : Document.IsBare "enabled" := ⟨by decide, List.all_eq_true.mp rfl⟩
  have hseconds : Document.IsBare "ttl_secs" := ⟨by decide, List.all_eq_true.mp rfl⟩
  refine Document.read_section hcache hkeys (List.forall_mem_cons.mpr ⟨⟨henabled, he⟩, ?_⟩)
  exact List.forall_mem_singleton.mpr ⟨hseconds, ht⟩

/-! ### Layers -/

/-- The value that counts for a setting: that of its variable, else that of the document, else what holds by
default. -/
def counting (environment : List (String × String)) (document : Node) (path : List String) (byDefault : Node) : Node :=
  ((Variable.setting? environment path).or (document.at? path)).getD byDefault

/-- What a tree has for the cache, if anything, is a table. -/
def CacheIsTable (document : Node) : Prop :=
  ∀ n ∈ document.at? ["cache"], ∃ ms, n = .table ms

section Layers
variable {document : Option String} {lower : Node} {environment : List (String × String)}

theorem exists_members_of_documentTree (h : documentTree document = .ok lower) :
    ∃ ms, lower = .table ms ∧ lower.Distinct := by
  unfold documentTree at h
  split at h
  · cases h
    exact ⟨[], rfl, .table List.nodup_nil fun m hm => by cases hm⟩
  · split at h <;> cases h
    rename_i hread
    exact ⟨_, rfl, Document.distinct_of_read hread⟩

theorem documentTree_eq_error_iff {e : SettingsError} : documentTree document = .error e ↔
    e = .unreadable ∧ ∃ text ∈ document, Document.read text = none := by
  cases document with
  | none => simp [documentTree]
  | some text =>
    rw [documentTree]
    cases hread : Document.read text <;> simp [hread, eq_comm]

/-- The way to the settings is clear in a document whose `cache` is a table. -/
theorem clear_documentTree (h : documentTree document = .ok lower) (hcache : CacheIsTable lower) (key : String) :
    lower.Clear ["cache", key] := by
  obtain ⟨ms, rfl, hdistinct⟩ := exists_members_of_documentTree h
  cases hdistinct with
  | table hnames hms =>
    refine ⟨hnames, fun n hn => ?_⟩
    obtain ⟨c, rfl⟩ := hcache n (by rw [Node.at?, hn]; rfl)
    cases hms _ (mem_of_lookup hn) with
    | table hkeys => exact ⟨hkeys, fun _ _ => trivial⟩

theorem clear_toNode (s : Settings) (key : String) : (toNode s).Clear ["cache", key] := by
  refine ⟨List.pairwise_singleton _ _, fun n hn => ?_⟩
  rw [List.lookup_cons_self] at hn
  obtain rfl := Option.some.inj hn
  have hnames : ["enabled", "ttl_secs"].Nodup := by decide
  exact ⟨hnames, fun _ _ => trivial⟩

/-- A reader that makes no difference between tables reads the value that counts at a path of the layers. -/
theorem read_layers {α : Type} (read : Option Node → α)
    (hread : ∀ ms ms' : Members, read (some (.table ms)) = read (some (.table ms'))) {path : List String}
    (hset : Variable.SetOnce environment path) (hpath : path ≠ []) (hlower : lower.Clear path) (byDefault : Node)
    (hdefault : (toNode default).at? path = some byDefault) :
    read (((Variable.tree environment).over (lower.over (toNode default))).at? path) =
      read (some (counting environment lower path byDefault)) := by
  obtain ⟨hclear, hat⟩ := Variable.at?_tree hset hpath
  rw [Node.at?_over hclear, hat, Node.at?_over hlower, hdefault, over?_over?_congr read hread, counting]

theorem load_eq_ofNode : load document environment = (documentTree document).bind fun d =>
    ofNode ((Variable.tree environment).over (d.over (toNode default))) := rfl

theorem ofDocument_eq (text : String) : ofDocument text = (documentTree (some text)).bind fun d =>
    ofNode (d.over (toNode default)) := rfl

/-- Loading takes each setting from the uppermost layer that has it. -/
theorem load_eq (hcache : ∀ d, documentTree document = .ok d → CacheIsTable d)
    (henabled : Variable.SetOnce environment enabledPath) (hseconds : Variable.SetOnce environment secondsPath) :
    load document environment = (documentTree document).bind fun d =>
      (cacheOfParts (some (counting environment d enabledPath (.boolean true)))
        (some (counting environment d secondsPath (.integer 300)))).map fun cache => { cache } := by
  rw [load_eq_ofNode]
  cases hd : documentTree document with
  | error e => rfl
  | ok d =>
    have hclear := clear_documentTree hd (hcache d hd)
    have htree := (Variable.at?_tree henabled (List.cons_ne_nil _ _)).1
    rw [Except.bind, Except.bind, ofNode_of_clear (htree.over ((hclear _).over (clear_toNode _ _))), cacheOfParts_eq,
      cacheOfParts_eq, read_layers (boolean? true) (fun _ _ => rfl) henabled (List.cons_ne_nil _ _) (hclear _) _ rfl,
      read_layers (seconds? 300) (fun _ _ => rfl) hseconds (List.cons_ne_nil _ _) (hclear _) _ rfl]
    rfl

/-- Reading a document is loading it without variables. -/
theorem ofDocument_eq_load (text : String) : ofDocument text = load (some text) [] := by
  rw [ofDocument_eq, load_eq_ofNode]
  cases hd : documentTree (some text) with
  | error e => rfl
  | ok d =>
    obtain ⟨ms, rfl, -⟩ := exists_members_of_documentTree hd
    rw [Except.bind, Except.bind, toNode, Node.over, Variable.tree, List.foldl_nil, Node.over, membersOver]

/-- Each setting is taken from the uppermost layer that has it, whatever the other one is taken from. Loading fails
when the document cannot be read or a value that counts is of the wrong type, and for no other reason. -/
theorem load_layers (hcache : ∀ d, documentTree document = .ok d → CacheIsTable d)
    (henabled : Variable.SetOnce environment enabledPath) (hseconds : Variable.SetOnce environment secondsPath) :
    (∀ s, load document environment = .ok s ↔ ∃ d, documentTree document = .ok d ∧
      counting environment d enabledPath (.boolean true) = .boolean s.cache.enabled ∧
      counting environment d secondsPath (.integer 300) = .integer s.cache.ttlSeconds.toNat) ∧
    (∀ e, load document environment = .error e ↔ e = .unreadable ∧
      ((∃ text ∈ document, Document.read text = none) ∨ ∃ d, documentTree document = .ok d ∧
        ((∀ b, counting environment d enabledPath (.boolean true) ≠ .boolean b) ∨
          ∀ n : UInt64, counting environment d secondsPath (.integer 300) ≠ .integer n.toNat))) ∧
    ((∀ v ∈ environment, Variable.path? v.1 ≠ some enabledPath ∧ Variable.path? v.1 ≠ some secondsPath) →
      ∀ text ∈ document, load document environment = ofDocument text) ∧
    (∀ name : String, Recased "nql_cache__enabled".toList name.toList → Variable.path? name = some enabledPath) ∧
    ∀ name : String, Recased "nql_cache__ttl_secs".toList name.toList → Variable.path? name = some secondsPath := by
  have hload := load_eq hcache henabled hseconds
  refine ⟨fun s => ?ok, fun e => ?error, fun hfree text htext => ?document, fun name hname => ?enabled,
    fun name hname => ?seconds⟩
  case ok =>
    simp only [hload, bind_eq_ok_iff, map_eq_ok_iff, cacheOfParts_eq_ok_iff]
    constructor
    · rintro ⟨d, hd, cache, hcounting, rfl⟩
      exact ⟨d, hd, hcounting⟩
    · rintro ⟨d, hd, hcounting⟩
      exact ⟨d, hd, s.cache, hcounting, rfl⟩
  case error =>
    simp only [hload, bind_eq_error_iff, map_eq_error_iff, cacheOfParts_eq_error_iff, documentTree_eq_error_iff]
    constructor
    · rintro (⟨rfl, htext⟩ | ⟨d, hd, rfl, hcounting⟩)
      · exact ⟨rfl, Or.inl htext⟩
      · exact ⟨rfl, Or.inr ⟨d, hd, hcounting⟩⟩
    · rintro ⟨rfl, htext | ⟨d, hd, hcounting⟩⟩
      · exact Or.inl ⟨rfl, htext⟩
      · exact Or.inr ⟨d, hd, rfl, hcounting⟩
  case document =>
    obtain rfl := Option.mem_def.mp htext
    have hfree : Variable.setting? environment enabledPath = none ∧ Variable.setting? environment secondsPath = none :=
      ⟨Variable.setting?_eq_none fun v hv => (hfree v hv).1, Variable.setting?_eq_none fun v hv => (hfree v hv).2⟩
    have hnone : ∀ path, Variable.SetOnce [] path := fun path => Variable.setOnce_of_unset fun _ hv => by cases hv
    rw [ofDocument_eq_load, hload, load_eq hcache (hnone _) (hnone _)]
    simp only [counting, hfree]
    rfl
  case enabled =>
    rw [Variable.path?_recased hname]
    rfl
  case seconds =>
    rw [Variable.path?_recased hname]
    rfl

/-- A value of the wrong type in the document does no harm below a variable, and a setting without a variable is taken
from the document. Variables are read as truth values and numbers, whatever stands around and in front of these. -/
theorem load_layers_overridden :
    load (some "[cache]\nenabled = 7\nttl_secs = 60\n") [("nql_Cache__Enabled", "false"), ("NQL_LEVEL", "x")] =
      .ok { cache := { enabled := false, ttlSeconds := 60 } } ∧
    load (some "[cache]\nenabled = 7\nttl_secs = 60\n")
        [("NQL_CACHE__TTL_SECS", "+0120"), ("Nql_Cache__Enabled", " true ")] =
      .ok { cache := { enabled := true, ttlSeconds := 120 } } := by
  have htext : "[cache]\nenabled = 7\nttl_secs = 60\n" = String.ofList (Document.textOf (Document.sectionLines "cache"
      [("enabled", Decimal.writeNat 7, .integer 7), ("ttl_secs", Decimal.writeNat 60, .integer 60)])) := by decide
  have hread : Document.read "[cache]\nenabled = 7\nttl_secs = 60\n" =
      some [("cache", .table [("enabled", .integer 7), ("ttl_secs", .integer 60)])] :=
    (congrArg Document.read htext).trans
      (read_cacheSection (@Document.isWord_integer 7 (by decide)) (@Document.isWord_integer 60 (by decide)))
  have hdocument : documentTree (some "[cache]\nenabled = 7\nttl_secs = 60\n") =
      .ok (.table [("cache", .table [("enabled", .integer 7), ("ttl_secs", .integer 60)])]) := by
    rw [documentTree, hread]
  have hcache : ∀ d, documentTree (some "[cache]\nenabled = 7\nttl_secs = 60\n") = .ok d → CacheIsTable d := by
    intro d hd
    obtain rfl := Except.ok.inj (hdocument.symm.trans hd)
    exact fun n hn => ⟨_, (Option.some.inj hn).symm⟩
  constructor
  · refine ((load_layers hcache ⟨by decide, by decide⟩ ⟨by decide, by decide⟩).1 _).mpr ⟨_, hdocument, ?_, ?_⟩
    · cbv
    · cbv
  · refine ((load_layers hcache ⟨by decide, by decide⟩ ⟨by decide, by decide⟩).1 _).mpr ⟨_, hdocument, ?_, ?_⟩
    · cbv
    · cbv

end Layers

end EntityQuery.Settings
