import Std.Data.TreeMap.Lemmas
import Mathlib.Data.List.Induction
import Mathlib.Data.List.TakeWhile
import Mathlib.Data.String.Basic

/-!
# Flat configuration maps

`ConfigParser` reads YAML into a flat map with dotted keys, and writes such a map as YAML
again: the keys are grouped by what stands before their first dot, and a group is a nested
map, or a scalar when it has one key without a dot.

yaml-cpp is a parameter: what its emitter makes of a sequence of events, what its loader
makes of a text, and which nodes it converts to strings.
-/

namespace Pimid.Config

open Std (TreeMap)

abbrev FlatMap := TreeMap String String

/-! ## The parser -/

inductive Node where
  | null
  | scalar (text : String)
  | seq (items : List Node)
  | map (entries : List (String × Node))

/-- What `toYAML` sends to the emitter. -/
inductive Event where
  | beginMap
  | key (text : String)
  | value (text : String)
  | endMap
deriving DecidableEq

/-- The library. `load` and `asText` are `none` where it throws. -/
structure Yaml where
  emit : List Event → String
  load : String → Option Node
  asText : Node → Option String

mutual

/-- The map after the node, and whether it was read to its end. -/
def parseNode (y : Yaml) : Node → String → FlatMap → FlatMap × Bool
  | .null, _, config => (config, true)
  | .scalar text, path, config => (config.insert path text, true)
  | .seq items, path, config =>
    match items.mapM y.asText with
    | none => (config, false)
    | some texts => (config.insert path (",".intercalate texts), true)
  | .map entries, path, config => parseEntries y entries path config

def parseEntries (y : Yaml) : List (String × Node) → String → FlatMap → FlatMap × Bool
  | [], _, config => (config, true)
  | (key, node) :: rest, path, config =>
    let read := parseNode y node (if path = "" then key else path ++ "." ++ key) config
    if read.2 then parseEntries y rest path read.1 else read

end

def parseString (y : Yaml) (yaml_content : String) (config : FlatMap) : FlatMap × Bool :=
  match y.load yaml_content with
  | none => (config, false)
  | some root => parseNode y root "" config

/-! ## The writer -/

/-- A key before and after its first dot. -/
def splitDot (key : String) : Option (String × String) :=
  match key.toList.dropWhile (· ≠ '.') with
  | [] => none
  | _ :: sub => some (.ofList (key.toList.takeWhile (· ≠ '.')), .ofList sub)

/-- The group of a key, and the key in it. -/
def place (key : String) : String × String := (splitDot key).getD (key, "")

abbrev Groups := TreeMap String FlatMap

def grouped (config : FlatMap) : Groups :=
  config.toList.foldl (fun groups kv =>
    groups.insert (place kv.1).1 ((groups.getD (place kv.1).1 ∅).insert (place kv.1).2 kv.2)) ∅

/-- The text of a group that has one key, the empty one. -/
def soleText (group : FlatMap) : Option String :=
  match group.toList with
  | [(key, text)] => if key = "" then some text else none
  | _ => none

def subKeys (group : FlatMap) : List (String × String) := group.toList.filter fun kv => decide (kv.1 ≠ "")

def groupEvents (group : String × FlatMap) : List Event :=
  .key group.1 :: match soleText group.2 with
    | some text => [.value text]
    | none => .beginMap :: (subKeys group.2).flatMap (fun kv => [.key kv.1, .value kv.2]) ++ [.endMap]

def toEvents (config : FlatMap) : List Event := .beginMap :: (grouped config).toList.flatMap groupEvents ++ [.endMap]

def toYAML (y : Yaml) (config : FlatMap) : String := y.emit (toEvents config)

/-! ## What is emitted -/

mutual

/-- The events of nested maps of strings; the writer makes nothing else. -/
def Node.events : Node → List Event
  | .null => []
  | .scalar text => [.value text]
  | .seq _ => []
  | .map entries => .beginMap :: entryEvents entries ++ [.endMap]

def entryEvents : List (String × Node) → List Event
  | [] => []
  | (key, node) :: rest => .key key :: node.events ++ entryEvents rest

end

/-- yaml-cpp loads what it emits for the node. -/
def Yaml.Loads (y : Yaml) (node : Node) : Prop := y.load (y.emit node.events) = some node

/-- A group as a node. -/
def groupNode (group : FlatMap) : Node :=
  match soleText group with
  | some text => .scalar text
  | none => .map ((subKeys group).map fun kv => (kv.1, .scalar kv.2))

/-- The node that the map is written as. -/
def doc (config : FlatMap) : Node := .map ((grouped config).toList.map fun group => (group.1, groupNode group.2))

theorem toEvents_eq (config : FlatMap) : toEvents config = (doc config).events := by
  have hscalars (kvs : List (String × String)) :
      entryEvents (kvs.map fun kv => (kv.1, .scalar kv.2)) = kvs.flatMap fun kv => [.key kv.1, .value kv.2] := by
    induction kvs with
    | nil => rfl
    | cons kv kvs ih =>
      rw [List.map_cons, entryEvents, ih, List.flatMap_cons]
      rfl
  have hgroups (groups : List (String × FlatMap)) :
      entryEvents (groups.map fun group => (group.1, groupNode group.2)) = groups.flatMap groupEvents := by
    induction groups with
    | nil => rfl
    | cons group groups ih =>
      rw [List.map_cons, entryEvents, ih, List.flatMap_cons, groupEvents, groupNode]
      cases soleText group.2 with
      | some text => rfl
      | none =>
        dsimp only
        rw [Node.events, hscalars]
  rw [toEvents, doc, Node.events, hgroups]

/-! ## Keys -/

/-- Every segment of the key has a letter. -/
def Segments (key : String) : Prop := ∀ segment ∈ key.toList.splitOn '.', segment ≠ []

instance (key : String) : Decidable (Segments key) := inferInstanceAs (Decidable (∀ _ ∈ _, _))

theorem splitDot_eq_some {key top sub : String} (h : splitDot key = some (top, sub)) :
    key = top ++ "." ++ sub ∧ '.' ∉ top.toList := by
  rw [splitDot] at h
  split at h
  · cases h
  next c rest hdrop =>
    simp only [Option.some.injEq, Prod.mk.injEq] at h
    obtain ⟨htop, hsub⟩ := h
    have hc : c = '.' := by
      have hhead := List.head?_dropWhile_not (fun a => decide (a ≠ '.')) key.toList
      rw [hdrop] at hhead
      simpa using hhead
    refine ⟨?_, fun hdot => ?_⟩
    · rw [← String.toList_inj, ← htop, ← hsub, String.toList_append, String.toList_append, String.toList_ofList,
        String.toList_ofList]
      have hsplit := List.takeWhile_append_dropWhile (p := fun a => decide (a ≠ '.')) (l := key.toList)
      rw [hdrop, hc] at hsplit
      exact (hsplit.symm.trans (by simp))
    · rw [← htop, String.toList_ofList] at hdot
      have hne := List.mem_takeWhile_imp hdot
      simp at hne

theorem splitDot_eq_none {key : String} : splitDot key = none ↔ '.' ∉ key.toList := by
  rw [splitDot]
  split
  next hdrop =>
    rw [List.dropWhile_eq_nil_iff] at hdrop
    exact ⟨fun _ hdot => absurd (hdrop _ hdot) (by decide), fun _ => rfl⟩
  next c rest hdrop =>
    refine ⟨fun h => (nomatch h), fun hdot => ?_⟩
    have hall : key.toList.dropWhile (fun a => decide (a ≠ '.')) = [] :=
      List.dropWhile_eq_nil_iff.mpr fun a ha => decide_eq_true fun heq => hdot (heq ▸ ha)
    rw [hall] at hdrop
    cases hdrop

/-- The key of a place. -/
def join (top sub : String) : String := if sub = "" then top else top ++ "." ++ sub

theorem Segments.place {key : String} (h : Segments key) :
    (splitDot key = none ∧ place key = (key, "") ∧ key ≠ "") ∨
      ∃ top sub, splitDot key = some (top, sub) ∧ place key = (top, sub) ∧ top ≠ "" ∧ sub ≠ "" := by
  cases hsplit : splitDot key with
  | none =>
    refine .inl ⟨rfl, by rw [Config.place, hsplit]; rfl, fun hempty => ?_⟩
    subst hempty
    exact h [] (by decide) rfl
  | some parts =>
    obtain ⟨top, sub⟩ := parts
    obtain ⟨hkey, hdot⟩ := splitDot_eq_some hsplit
    have hsegments : key.toList.splitOn '.' = top.toList :: sub.toList.splitOn '.' := by
      rw [hkey, String.toList_append, String.toList_append, List.append_assoc]
      exact List.splitOn_append_cons_self_of_not_mem hdot _
    refine .inr ⟨top, sub, rfl, by rw [Config.place, hsplit]; rfl, fun hempty => ?_, fun hempty => ?_⟩
    · refine h [] ?_ rfl
      rw [hsegments, hempty]
      exact List.mem_cons_self ..
    · refine h [] ?_ rfl
      rw [hsegments, hempty]
      exact List.mem_cons_of_mem _ (by decide)

theorem Segments.join_place {key : String} (h : Segments key) : join (Config.place key).1 (Config.place key).2 = key := by
  rcases h.place with ⟨-, hplace, -⟩ | ⟨top, sub, hsplit, hplace, -, hsub⟩
  · rw [hplace]
    exact if_pos rfl
  · rw [hplace, join, if_neg hsub]
    exact (splitDot_eq_some hsplit).1.symm

theorem Segments.place_inj {key key' : String} (h : Segments key) (h' : Segments key')
    (heq : Config.place key = Config.place key') : key = key' := by
  rw [← h.join_place, heq, h'.join_place]

/-! ## Groups -/

theorem mem_toList {κ : Type} [Ord κ] [Std.TransOrd κ] [Std.LawfulEqOrd κ] {β : Type} (m : TreeMap κ β) {k : κ} {v : β} :
    (k, v) ∈ m.toList ↔ m[k]? = some v := TreeMap.mem_toList_iff_getElem?_eq_some

theorem foldl_grouped {kvs : List (String × String)} (hkeys : kvs.Pairwise fun a b => a.1 ≠ b.1)
    (hseg : ∀ kv ∈ kvs, Segments kv.1) (top sub v : String) :
    ((kvs.foldl (fun groups kv =>
      groups.insert (place kv.1).1 ((groups.getD (place kv.1).1 ∅).insert (place kv.1).2 kv.2)) (∅ : Groups)).getD top ∅)[sub]? =
        some v ↔ ∃ key, (key, v) ∈ kvs ∧ place key = (top, sub) := by
  induction kvs using List.reverseRecOn with
  | nil => simp
  | append_singleton kvs kv ih =>
    obtain ⟨hkeys', -, hlast⟩ := List.pairwise_append.mp hkeys
    have hseg' : ∀ p ∈ kvs, Segments p.1 := fun p hp => hseg p (List.mem_append_left _ hp)
    have hkv := hseg kv (List.mem_append_right _ (List.mem_singleton_self _))
    have hother : ∀ key, (∃ v, (key, v) ∈ kvs) → place key ≠ place kv.1 := fun key ⟨v, hmem⟩ heq =>
      hlast _ hmem kv (List.mem_singleton_self _) ((hseg' _ hmem).place_inj hkv heq)
    rw [List.foldl_append, List.foldl_cons, List.foldl_nil, TreeMap.getD_insert]
    have hsplit : (∃ key, (key, v) ∈ kvs ++ [kv] ∧ place key = (top, sub)) ↔
        (∃ key, (key, v) ∈ kvs ∧ place key = (top, sub)) ∨ (kv.2 = v ∧ place kv.1 = (top, sub)) := by
      simp only [List.mem_append, List.mem_singleton]
      constructor
      · intro ⟨key, hmem, hplace⟩
        rcases hmem with hmem | hmem
        · exact .inl ⟨key, hmem, hplace⟩
        · exact .inr ⟨(congrArg Prod.snd hmem).symm, (congrArg Prod.fst hmem) ▸ hplace⟩
      · intro h
        rcases h with ⟨key, hmem, hplace⟩ | ⟨hv, hplace⟩
        · exact ⟨key, .inl hmem, hplace⟩
        · exact ⟨kv.1, .inr (by rw [← hv]), hplace⟩
    rw [hsplit, ← ih hkeys' hseg']
    by_cases htop : (place kv.1).1 = top
    · rw [if_pos (by rw [htop]; exact Std.ReflCmp.compare_self), TreeMap.getElem?_insert]
      by_cases hsub : (place kv.1).2 = sub
      · rw [if_pos (by rw [hsub]; exact Std.ReflCmp.compare_self), Option.some.injEq]
        have hplace : place kv.1 = (top, sub) := Prod.ext htop hsub
        refine ⟨fun h => .inr ⟨h, hplace⟩, fun h => ?_⟩
        rcases h with h | h
        · obtain ⟨key, hmem, heq⟩ := (ih hkeys' hseg').mp h
          exact absurd (heq.trans hplace.symm) (hother key ⟨v, hmem⟩)
        · exact h.1
      · rw [if_neg (fun h => hsub (Std.LawfulEqCmp.eq_of_compare h)), htop]
        exact ⟨.inl, fun h => h.resolve_right fun h => hsub (congrArg Prod.snd h.2)⟩
    · rw [if_neg (fun h => htop (Std.LawfulEqCmp.eq_of_compare h))]
      exact ⟨.inl, fun h => h.resolve_right fun h => htop (congrArg Prod.fst h.2)⟩

theorem grouped_getElem? {config : FlatMap} (hseg : ∀ key v, config[key]? = some v → Segments key) (top sub v : String) :
    ((grouped config).getD top ∅)[sub]? = some v ↔ ∃ key, config[key]? = some v ∧ place key = (top, sub) := by
  rw [grouped, foldl_grouped]
  · simp only [mem_toList]
  · exact TreeMap.distinct_keys_toList.imp fun {a b} hne (heq : a.1 = b.1) => hne (by rw [heq]; exact Std.ReflCmp.compare_self)
  · intro kv hkv
    exact hseg kv.1 kv.2 ((mem_toList config).mp hkv)

theorem mem_group {config : FlatMap} {top : String} {group : FlatMap} (h : (top, group) ∈ (grouped config).toList) :
    (grouped config).getD top ∅ = group := by
  rw [TreeMap.getD_eq_getD_getElem?, (mem_toList _).mp h]
  rfl

/-! ## What is read back -/

/-- What the parser sets for a group. -/
def groupSets (group : String × FlatMap) : List (String × String) :=
  match soleText group.2 with
  | some text => [(group.1, text)]
  | none => (subKeys group.2).map fun kv => (group.1 ++ "." ++ kv.1, kv.2)

def sets (config : FlatMap) : List (String × String) := (grouped config).toList.flatMap groupSets

theorem parseEntries_scalars (y : Yaml) (kvs : List (String × String)) {path : String} (hpath : path ≠ "") (config : FlatMap) :
    parseEntries y (kvs.map fun kv => (kv.1, .scalar kv.2)) path config =
      ((kvs.map fun kv => (path ++ "." ++ kv.1, kv.2)).foldl (fun m kv => m.insert kv.1 kv.2) config, true) := by
  induction kvs generalizing config with
  | nil => rfl
  | cons kv kvs ih =>
    rw [List.map_cons, parseEntries, if_neg hpath, parseNode]
    dsimp only
    rw [if_pos rfl, ih]
    rfl

theorem parseEntries_groups (y : Yaml) (groups : List (String × FlatMap)) (htop : ∀ group ∈ groups, group.1 ≠ "") (config : FlatMap) :
    parseEntries y (groups.map fun group => (group.1, groupNode group.2)) "" config =
      ((groups.flatMap groupSets).foldl (fun m kv => m.insert kv.1 kv.2) config, true) := by
  induction groups generalizing config with
  | nil => rfl
  | cons group groups ih =>
    have hone : parseNode y (groupNode group.2) group.1 config =
        ((groupSets group).foldl (fun m kv => m.insert kv.1 kv.2) config, true) := by
      rw [groupNode, groupSets]
      cases soleText group.2 with
      | some text => rw [parseNode]; rfl
      | none =>
        dsimp only
        rw [parseNode, parseEntries_scalars y _ (htop group (List.mem_cons_self ..))]
    rw [List.map_cons, parseEntries, if_pos rfl, hone]
    dsimp only
    rw [if_pos rfl, ih fun g hg => htop g (List.mem_cons_of_mem _ hg), List.flatMap_cons, List.foldl_append]

theorem foldl_insert_getElem? {kvs : List (String × String)} (h : ∀ k v v', (k, v) ∈ kvs → (k, v') ∈ kvs → v = v') (k v : String) :
    (kvs.foldl (fun m kv => m.insert kv.1 kv.2) (∅ : FlatMap))[k]? = some v ↔ (k, v) ∈ kvs := by
  induction kvs using List.reverseRecOn with
  | nil => simp
  | append_singleton kvs kv ih =>
    have h' : ∀ k v v', (k, v) ∈ kvs → (k, v') ∈ kvs → v = v' := fun k v v' hv hv' =>
      h k v v' (List.mem_append_left _ hv) (List.mem_append_left _ hv')
    have hlast : kv ∈ kvs ++ [kv] := List.mem_append_right _ (List.mem_singleton_self _)
    rw [List.foldl_append, List.foldl_cons, List.foldl_nil, TreeMap.getElem?_insert]
    by_cases hk : kv.1 = k
    · rw [if_pos (by rw [hk]; exact Std.ReflCmp.compare_self), Option.some.injEq]
      constructor
      · intro hv
        rw [← hk, ← hv]
        exact hlast
      · intro hmem
        refine h k kv.2 v ?_ hmem
        rw [← hk]
        exact hlast
    · rw [if_neg (fun hc => hk (Std.LawfulEqCmp.eq_of_compare hc)), ih h', List.mem_append]
      refine ⟨.inl, fun hmem => hmem.resolve_right fun hmem => hk ?_⟩
      rw [← List.mem_singleton.mp hmem]

theorem soleText_eq_some {group : FlatMap} {text : String} : soleText group = some text ↔ group.toList = [("", text)] := by
  rw [soleText]
  split
  next key value hlist =>
    rw [hlist]
    by_cases hkey : key = ""
    · rw [if_pos hkey, hkey]
      simp
    · rw [if_neg hkey]
      simp [hkey]
  next hnot =>
    exact ⟨fun h => (nomatch h), fun h => absurd h (hnot _ _)⟩

theorem of_mem_sets {config : FlatMap} (hseg : ∀ key v, config[key]? = some v → Segments key) {k v : String}
    (h : (k, v) ∈ sets config) : config[k]? = some v := by
  obtain ⟨⟨top, group⟩, hgroup, hset⟩ := List.mem_flatMap.mp h
  have hlookup (sub w : String) (hw : (sub, w) ∈ group.toList) : ∃ key, config[key]? = some w ∧ place key = (top, sub) := by
    rw [mem_toList, ← mem_group hgroup] at hw
    exact (grouped_getElem? hseg top sub w).mp hw
  have hplaced (sub : String) (hkey : ∃ key, config[key]? = some v ∧ place key = (top, sub)) : config[join top sub]? = some v := by
    obtain ⟨key, hv, hplace⟩ := hkey
    have hjoin := (hseg key v hv).join_place
    rw [hplace] at hjoin
    rw [hjoin]
    exact hv
  rw [groupSets] at hset
  cases hsole : soleText group with
  | some text =>
    rw [hsole] at hset
    obtain ⟨rfl, rfl⟩ := Prod.mk.inj (List.mem_singleton.mp hset)
    have hsub := hplaced "" (hlookup "" v (by rw [soleText_eq_some.mp hsole]; exact List.mem_singleton_self _))
    rwa [join, if_pos rfl] at hsub
  | none =>
    rw [hsole] at hset
    obtain ⟨⟨sub, w⟩, hsub, heq⟩ := List.mem_map.mp hset
    obtain ⟨rfl, rfl⟩ := Prod.mk.inj heq
    obtain ⟨hmem, hne⟩ := List.mem_filter.mp hsub
    have hval := hplaced sub (hlookup sub w hmem)
    rwa [join, if_neg (of_decide_eq_true hne)] at hval

/-- A key without a dot shares its name with the group of another key. -/
def Clash (config : FlatMap) (key other : String) : Prop :=
  key ∈ config ∧ other ∈ config ∧ splitDot key = none ∧ ∃ sub, splitDot other = some (key, sub)

theorem mem_sets {config : FlatMap} (hseg : ∀ key v, config[key]? = some v → Segments key) {k v : String} (hk : config[k]? = some v)
    (hclash : ∀ other, ¬Clash config k other) : (k, v) ∈ sets config := by
  have hmem : k ∈ config := by
    rw [TreeMap.mem_iff_isSome_getElem?, hk]
    rfl
  have hput := (grouped_getElem? hseg (place k).1 (place k).2 v).mpr ⟨k, hk, rfl⟩
  have hgroup : ((place k).1, (grouped config).getD (place k).1 ∅) ∈ (grouped config).toList := by
    rw [mem_toList]
    cases hg : (grouped config)[(place k).1]? with
    | none =>
      rw [TreeMap.getD_eq_getD_getElem?, hg, Option.getD_none] at hput
      simp at hput
    | some group => rw [TreeMap.getD_eq_getD_getElem?, hg, Option.getD_some]
  refine List.mem_flatMap.mpr ⟨_, hgroup, ?_⟩
  have hitem := (mem_toList _).mpr hput
  generalize hg : (grouped config).getD (place k).1 ∅ = group at *
  rcases (hseg k v hk).place with ⟨hsplit, hplace, -⟩ | ⟨top, sub, hsplit, hplace, -, hsub⟩
  · -- alone in its group
    rw [hplace] at hitem hg ⊢
    have hkeys : ∀ kv ∈ group.toList, kv.1 = "" := by
      intro kv hkv
      by_contra hne
      rw [mem_toList, ← hg] at hkv
      obtain ⟨other, hother, hplace'⟩ := (grouped_getElem? hseg k kv.1 kv.2).mp hkv
      refine hclash other ⟨hmem, by rw [TreeMap.mem_iff_isSome_getElem?, hother]; rfl, hsplit, kv.1, ?_⟩
      rcases (hseg other kv.2 hother).place with ⟨-, hplace'', -⟩ | ⟨top, sub, hsplit', hplace'', -, -⟩
      · rw [hplace''] at hplace'
        exact absurd (congrArg Prod.snd hplace').symm hne
      · rw [hsplit', ← hplace'', hplace']
    have hlist : group.toList = [("", v)] := by
      have hdistinct := group.distinct_keys_toList
      match hl : group.toList, hitem, hkeys, hdistinct with
      | [kv], hitem, _, _ => rw [List.mem_singleton.mp hitem]
      | a :: b :: rest, _, hkeys, hdistinct =>
        have hne := (List.pairwise_cons.mp hdistinct).1 b (List.mem_cons_self ..)
        rw [hkeys a (List.mem_cons_self ..), hkeys b (List.mem_cons_of_mem _ (List.mem_cons_self ..))] at hne
        exact absurd Std.ReflCmp.compare_self hne
    rw [groupSets, soleText_eq_some.mpr hlist]
    exact List.mem_singleton_self _
  · rw [hplace] at hitem ⊢
    have hnone : soleText group = none := by
      refine Option.eq_none_iff_forall_not_mem.mpr fun text hsole => ?_
      rw [soleText_eq_some.mp hsole] at hitem
      exact hsub (congrArg Prod.fst (List.mem_singleton.mp hitem))
    rw [groupSets, hnone]
    refine List.mem_map.mpr ⟨(sub, v), List.mem_filter.mpr ⟨hitem, decide_eq_true hsub⟩, ?_⟩
    rw [(splitDot_eq_some hsplit).1]

theorem not_mem_sets {config : FlatMap} (hseg : ∀ key v, config[key]? = some v → Segments key) {k v other : String}
    (hclash : Clash config k other) : (k, v) ∉ sets config := by
  obtain ⟨-, hother, hsplit, sub, hsub⟩ := hclash
  intro hmem
  obtain ⟨⟨top, group⟩, hgroup, hset⟩ := List.mem_flatMap.mp hmem
  rw [groupSets] at hset
  cases hsole : soleText group with
  | some text =>
    rw [hsole] at hset
    obtain ⟨rfl, rfl⟩ := Prod.mk.inj (List.mem_singleton.mp hset)
    -- the other key is in the group too
    obtain ⟨w, hw⟩ := Option.isSome_iff_exists.mp (TreeMap.mem_iff_isSome_getElem?.mp hother)
    have hin := (grouped_getElem? hseg k sub w).mpr ⟨other, hw, by rw [place, hsub]; rfl⟩
    rw [mem_group hgroup, ← mem_toList, soleText_eq_some.mp hsole] at hin
    rcases (hseg other w hw).place with ⟨hnone, -, -⟩ | ⟨top, sub', hsome, -, -, hne⟩
    · rw [hnone] at hsub
      cases hsub
    · rw [hsome, Option.some.injEq, Prod.mk.injEq] at hsub
      exact hne (hsub.2.trans (congrArg Prod.fst (List.mem_singleton.mp hin)))
  | none =>
    rw [hsole] at hset
    obtain ⟨kv, -, heq⟩ := List.mem_map.mp hset
    have hkey : top ++ "." ++ kv.1 = k := congrArg Prod.fst heq
    refine splitDot_eq_none.mp hsplit ?_
    rw [← hkey]
    simp

/-! ## The round trip -/

theorem mem_foldl_grouped {kvs : List (String × String)} {top : String}
    (h : top ∈ kvs.foldl (fun groups kv =>
      groups.insert (place kv.1).1 ((groups.getD (place kv.1).1 ∅).insert (place kv.1).2 kv.2)) (∅ : Groups)) :
    ∃ kv ∈ kvs, (place kv.1).1 = top := by
  induction kvs using List.reverseRecOn with
  | nil => exact absurd h TreeMap.not_mem_emptyc
  | append_singleton kvs kv ih =>
    rw [List.foldl_append, List.foldl_cons, List.foldl_nil, TreeMap.mem_insert] at h
    rcases h with h | h
    · exact ⟨kv, List.mem_append_right _ (List.mem_singleton_self _), Std.LawfulEqCmp.eq_of_compare h⟩
    · obtain ⟨kv', hmem, htop⟩ := ih h
      exact ⟨kv', List.mem_append_left _ hmem, htop⟩

theorem group_ne_empty {config : FlatMap} (hseg : ∀ key v, config[key]? = some v → Segments key) :
    ∀ group ∈ (grouped config).toList, group.1 ≠ "" := by
  intro group hgroup
  have htop : group.1 ∈ grouped config := by
    rw [TreeMap.mem_iff_isSome_getElem?, (mem_toList _).mp hgroup]
    rfl
  obtain ⟨kv, hkv, heq⟩ := mem_foldl_grouped htop
  rw [← heq]
  rcases (hseg kv.1 kv.2 ((mem_toList config).mp hkv)).place with ⟨-, hplace, hne⟩ | ⟨top, sub, -, hplace, hne, -⟩
  · rw [hplace]
    exact hne
  · rw [hplace]
    exact hne

theorem parse_doc (y : Yaml) {config : FlatMap} (hseg : ∀ key v, config[key]? = some v → Segments key) (hy : y.Loads (doc config)) :
    parseString y (toYAML y config) ∅ = ((sets config).foldl (fun m kv => m.insert kv.1 kv.2) ∅, true) := by
  rw [parseString, toYAML, toEvents_eq, hy]
  dsimp only
  rw [doc, parseNode, parseEntries_groups y _ (group_ne_empty hseg)]
  rfl

/-- **A flat map survives its text**, where yaml-cpp loads what it emits for it, exactly when
no key without a dot is the first segment of another key. -/
theorem flat_round_trip (y : Yaml) (config : FlatMap) (hseg : ∀ key v, config[key]? = some v → Segments key)
    (hy : y.Loads (doc config)) :
    (∃ read, parseString y (toYAML y config) ∅ = (read, true) ∧ ∀ key : String, read[key]? = config[key]?) ↔
      ∀ key other, ¬Clash config key other := by
  have hread : ∀ k v : String, ((sets config).foldl (fun m kv => m.insert kv.1 kv.2) (∅ : FlatMap))[k]? = some v ↔
      (k, v) ∈ sets config := foldl_insert_getElem? fun k v v' hv hv' =>
    Option.some.inj ((of_mem_sets hseg hv).symm.trans (of_mem_sets hseg hv'))
  rw [parse_doc y hseg hy]
  constructor
  · intro ⟨read, heq, hsame⟩ key other hclash
    obtain ⟨v, hv⟩ := Option.isSome_iff_exists.mp (TreeMap.mem_iff_isSome_getElem?.mp hclash.1)
    have hkey := hsame key
    rw [← (Prod.mk.inj heq).1, hv] at hkey
    exact not_mem_sets hseg hclash ((hread key v).mp hkey)
  · intro hclash
    refine ⟨_, rfl, fun key => Option.ext fun v => ?_⟩
    rw [hread]
    exact ⟨of_mem_sets hseg, fun hv => mem_sets hseg hv (hclash key)⟩

/-- A library that knows one text. -/
def oneText (text : String) (node : Node) : Yaml where
  emit _ := text
  load s := if s = text then some node else none
  asText
    | .scalar text => some text
    | _ => none

/-- A map whose group has keys with and without a second dot. -/
def nestedMap : FlatMap := ((∅ : FlatMap).insert "a" "1").insert "b.c" "2" |>.insert "b.c.d" "3"

theorem oneText_loads (text : String) (node : Node) : (oneText text node).Loads node := if_pos rfl

theorem flat_round_trip_nested :
    let y := oneText "a: 1\nb:\n  c: 2\n  c.d: 3" (doc nestedMap)
    (∃ read, parseString y (toYAML y nestedMap) ∅ = (read, true) ∧ ∀ key : String, read[key]? = nestedMap[key]?) ↔
      ∀ key other, ¬Clash nestedMap key other := by
  refine flat_round_trip _ nestedMap (fun key v hv => ?_) (oneText_loads _ _)
  rw [← mem_toList] at hv
  have hall : ∀ kv ∈ nestedMap.toList, Segments kv.1 := by decide
  exact hall _ hv

/-- A key and a group of one name: the key is gone. -/
theorem flat_round_trip_clash :
    let config : FlatMap := (∅ : FlatMap).insert "a" "1" |>.insert "a.b" "2"
    let y := oneText "a:\n  b: 2" (doc config)
    y.Loads (doc config) ∧ config["a"]? = some "1" ∧ (parseString y (toYAML y config) ∅).1["a"]? = none ∧
      (parseString y (toYAML y config) ∅).1["a.b"]? = some "2" := by
  exact ⟨oneText_loads _ _, by decide, by decide, by decide⟩

end Pimid.Config
