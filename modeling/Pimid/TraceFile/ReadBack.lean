import Pimid.TraceFile.RoundTrip
import Pimid.TraceFile.Text

/-!
# Metadata read back

The text that `generateYAML` writes of a configuration of plain strings, line by line,
and what `parseYAMLMetadata` makes of it. The parser looks at the keys of the top level
before it looks at the section, so a custom entry under one of them is lost.
-/

namespace Pimid.TraceFile

variable {D : Type} {n : Doubles D} {config : TraceConfig D} {timestamp : List UInt8}

/-- The keys that mean the same in every section. -/
def topKeys : List (List UInt8) :=
  [text "version", text "generator", text "timestamp", text "workload", text "num_events", text "num_pes"]

/-! ## What gets into the custom entries -/

theorem mem_mapSet {key value k : List UInt8} {m : List (List UInt8 × List UInt8)}
    (h : k ∈ (mapSet key value m).map Prod.fst) : k = key ∨ k ∈ m.map Prod.fst := by
  induction m with
  | nil => exact .inl (List.mem_singleton.mp h)
  | cons kv r ih =>
    rw [mapSet] at h
    split at h
    next heq =>
      rcases List.mem_cons.mp h with rfl | h
      · exact .inl rfl
      · exact .inr (List.mem_cons_of_mem _ h)
    next =>
      split at h
      next =>
        rcases List.mem_cons.mp h with rfl | h
        · exact .inl rfl
        · exact .inr h
      next =>
        rcases List.mem_cons.mp h with rfl | h
        · exact .inr List.mem_cons_self
        · exact (ih h).imp_right (List.mem_cons_of_mem _)

/-- No custom entry is under a key of the top level. -/
def NoTopKey (config : TraceConfig D) : Prop := ∀ kv ∈ config.customMetadata, kv.1 ∉ topKeys

instance (config : TraceConfig D) : Decidable (NoTopKey config) := inferInstanceAs (Decidable (∀ kv ∈ _, _))

/-- No custom entry of the result is under a key of the top level. -/
def Leaves (x : Except Thrown (TraceConfig D)) : Prop := ∀ c, x = .ok c → NoTopKey c

theorem Leaves.ite {p : Prop} [Decidable p] {x y : Except Thrown (TraceConfig D)} (hx : p → Leaves x) (hy : ¬p → Leaves y) :
    Leaves (if p then x else y) := by
  split
  next hp => exact hx hp
  next hp => exact hy hp

theorem NoTopKey.ok {c c' : TraceConfig D} (h : NoTopKey c) (he : c'.customMetadata = c.customMetadata) :
    Leaves (.ok c') := by
  intro c'' hc
  injection hc with hc
  rw [← hc, NoTopKey, he]
  exact h

theorem NoTopKey.map {α : Type} {c : TraceConfig D} (h : NoTopKey c) {x : Except Thrown α} {f : α → TraceConfig D}
    (hf : ∀ v, (f v).customMetadata = c.customMetadata) : Leaves (x.map f) := by
  cases x with
  | error e =>
    intro c' hc
    cases hc
  | ok v => exact h.ok (hf v)

theorem NoTopKey.setKey {c : TraceConfig D} {section_ key value : List UInt8} (h : NoTopKey c) :
    Leaves (setKey n c section_ key value) := by
  rw [TraceFile.setKey]
  refine .ite (fun _ => h.ok rfl) fun hversion => .ite (fun _ => h.ok rfl) fun hgenerator =>
    .ite (fun _ => h.ok rfl) fun htimestamp => .ite (fun _ => h.ok rfl) fun hworkload =>
    .ite (fun _ => h.map fun _ => rfl) fun hevents => .ite (fun _ => h.map fun _ => rfl) fun hpes => ?_
  refine .ite (fun _ => ?memory) fun _ => .ite (fun _ => ?network) fun _ => .ite (fun _ => ?pe) fun _ =>
    .ite (fun _ => ?custom) fun _ => h.ok rfl
  case memory =>
    exact .ite (fun _ => h.ok rfl) fun _ => .ite (fun _ => h.map fun _ => rfl) fun _ =>
      .ite (fun _ => h.map fun _ => rfl) fun _ => .ite (fun _ => h.map fun _ => rfl) fun _ =>
      .ite (fun _ => h.map fun _ => rfl) fun _ => h.ok rfl
  case network =>
    exact .ite (fun _ => h.ok rfl) fun _ => .ite (fun _ => h.map fun _ => rfl) fun _ =>
      .ite (fun _ => h.map fun _ => rfl) fun _ => h.ok rfl
  case pe => exact .ite (fun _ => h.ok rfl) fun _ => .ite (fun _ => h.map fun _ => rfl) fun _ => h.ok rfl
  case custom =>
    intro c' hc kv hkv
    injection hc with hc
    have hkey : kv.1 ∈ (mapSet key value c.customMetadata).map Prod.fst := by
      rw [← hc] at hkv
      exact List.mem_map_of_mem hkv
    rcases mem_mapSet hkey with heq | hold
    · rw [heq, topKeys]
      simp only [List.mem_cons, List.not_mem_nil, or_false, not_or]
      exact ⟨hversion, hgenerator, htimestamp, hworkload, hevents, hpes⟩
    · obtain ⟨kv', hkv', heq⟩ := List.mem_map.mp hold
      rw [← heq]
      exact h kv' hkv'

theorem NoTopKey.lines {lines : List (List UInt8)} {s s' : TraceConfig D × List UInt8} (h : NoTopKey s.1)
    (hparse : lines.foldlM (parseLine n) s = .ok s') : NoTopKey s'.1 := by
  induction lines generalizing s with
  | nil =>
    injection hparse with hparse
    exact hparse ▸ h
  | cons l ls ih =>
    rw [List.foldlM_cons, parseLine] at hparse
    cases hread : readLine l with
    | skip =>
      rw [hread] at hparse
      exact ih h hparse
    | header name =>
      rw [hread] at hparse
      exact ih (s := (s.1, name)) h hparse
    | setting key value =>
      rw [hread] at hparse
      dsimp only at hparse
      cases hset : TraceFile.setKey n s.1 s.2 key value with
      | error e =>
        rw [hset] at hparse
        cases hparse
      | ok c =>
        rw [hset] at hparse
        exact ih (s := (c, s.2)) (h.setKey c hset) hparse

/-- **No text puts a custom entry under a key of the top level.** -/
theorem NoTopKey.parse {c c' : TraceConfig D} {yaml : List UInt8} (h : NoTopKey c)
    (hparse : parseYAMLMetadata n c yaml = .ok c') : NoTopKey c' := by
  rw [parseYAMLMetadata] at hparse
  cases hlines : (getlines yaml).foldlM (parseLine n) (c, []) with
  | error e =>
    rw [hlines] at hparse
    cases hparse
  | ok s =>
    rw [hlines] at hparse
    injection hparse with hparse
    exact hparse ▸ NoTopKey.lines (s := (c, [])) h hlines

/-! ## The lines written -/

/-- A configuration whose strings are plain, with its custom entries in the order of a
`std::map`. -/
structure PlainConfig (config : TraceConfig D) : Prop where
  generator : Plain config.generator
  workload : Plain config.workload
  memoryTechnology : Plain config.memoryTechnology
  nocTopology : Plain config.nocTopology
  peType : Plain config.peType
  custom : ∀ kv ∈ config.customMetadata, Plain kv.1 ∧ 58 ∉ kv.1 ∧ Plain kv.2
  sorted : config.customMetadata.Pairwise fun kv kv' => kv.1 < kv'.1

def topLines (config : TraceConfig D) (timestamp : List UInt8) : List (List UInt8) :=
  [text "# PIMID Trace v1.0", settingLine [] (text "version") (text "1.0"),
    settingLine [] (text "generator") config.generator, settingLine [] (text "timestamp") timestamp] ++
  (if config.workload.isEmpty then [] else [settingLine [] (text "workload") config.workload]) ++
  [settingLine [] (text "num_events") (putNat config.numEvents.toNat),
    settingLine [] (text "num_pes") (putNat config.numPes.toNat)]

def memoryLines (config : TraceConfig D) : List (List UInt8) :=
  [text "memory_config:", settingLine (text "  ") (text "technology") config.memoryTechnology,
    settingLine (text "  ") (text "channels") (putNat config.channels.toNat),
    settingLine (text "  ") (text "ranks_per_channel") (putNat config.ranksPerChannel.toNat),
    settingLine (text "  ") (text "banks") (putNat config.banks.toNat),
    settingLine (text "  ") (text "subarrays_per_bank") (putNat config.subarraysPerBank.toNat)]

def networkLines (config : TraceConfig D) : List (List UInt8) :=
  [text "network_config:", settingLine (text "  ") (text "topology") config.nocTopology,
    settingLine (text "  ") (text "rows") (putNat config.nocRows.toNat),
    settingLine (text "  ") (text "cols") (putNat config.nocCols.toNat)]

def peLines (n : Doubles D) (config : TraceConfig D) : List (List UInt8) :=
  [text "pe_config:", settingLine (text "  ") (text "type") config.peType,
    settingLine (text "  ") (text "frequency_mhz") (n.put config.frequencyMhz)]

def customLines (config : TraceConfig D) : List (List UInt8) :=
  if config.customMetadata.isEmpty then []
  else text "custom:" :: config.customMetadata.map fun kv => settingLine (text "  ") kv.1 kv.2

def yamlLines (n : Doubles D) (config : TraceConfig D) (timestamp : List UInt8) : List (List UInt8) :=
  topLines config timestamp ++ (memoryLines config ++ (networkLines config ++ (peLines n config ++ customLines config)))

/-- A literal of the writer is a key and what surrounds it. -/
theorem topLine_eq (s k : String) (h : s = k ++ ": ") (v : List UInt8) :
    text s ++ v ++ text "\n" = settingLine [] (text k) v ++ [10] := by
  rw [text_split h, settingLine, List.nil_append]
  rfl

theorem append_topLine (s k : String) (h : s = k ++ ": ") (x v : List UInt8) :
    x ++ text s ++ v ++ text "\n" = x ++ (settingLine [] (text k) v ++ [10]) := by
  rw [← topLine_eq s k h]
  simp only [List.append_assoc]

theorem append_indentedLine (s k : String) (h : s = "  " ++ k ++ ": ") (x v : List UInt8) :
    x ++ text s ++ v ++ text "\n" = x ++ (settingLine (text "  ") (text k) v ++ [10]) := by
  have hbreak : text "\n" = [10] := rfl
  rw [text_split h, text_split (s := "  " ++ k) rfl, settingLine, hbreak]
  simp only [List.append_assoc]

theorem append_headerLine (s k : String) (h : s = k ++ "\n") (x : List UInt8) : x ++ text s = x ++ (text k ++ [10]) := by
  rw [text_split h]
  rfl

theorem generateYAML_eq : generateYAML n config timestamp = (yamlLines n config timestamp).flatMap fun l => l ++ [10] := by
  have hstart : text "# PIMID Trace v" ++ putNat traceVersionMajor ++ text "." ++ putNat traceVersionMinor ++ text "\n" ++
      text "version: " ++ putNat traceVersionMajor ++ text "." ++ putNat traceVersionMinor ++ text "\n" =
      text "# PIMID Trace v1.0" ++ [10] ++ (settingLine [] (text "version") (text "1.0") ++ [10]) := rfl
  have hcustom : (customLines config).flatMap (fun l => l ++ [10]) =
      if config.customMetadata.isEmpty then []
      else text "custom:\n" ++ config.customMetadata.flatMap fun kv => text "  " ++ kv.1 ++ text ": " ++ kv.2 ++ text "\n" := by
    rw [customLines]
    split
    · rfl
    · rw [List.flatMap_cons, List.flatMap_map]
      rfl
  unfold generateYAML
  rw [hstart, append_topLine "generator: " "generator" rfl, append_topLine "timestamp: " "timestamp" rfl,
    topLine_eq "workload: " "workload" rfl, append_topLine "num_events: " "num_events" rfl,
    append_topLine "num_pes: " "num_pes" rfl, append_headerLine "memory_config:\n" "memory_config:" rfl,
    append_indentedLine "  technology: " "technology" rfl, append_indentedLine "  channels: " "channels" rfl,
    append_indentedLine "  ranks_per_channel: " "ranks_per_channel" rfl, append_indentedLine "  banks: " "banks" rfl,
    append_indentedLine "  subarrays_per_bank: " "subarrays_per_bank" rfl,
    append_headerLine "network_config:\n" "network_config:" rfl, append_indentedLine "  topology: " "topology" rfl,
    append_indentedLine "  rows: " "rows" rfl, append_indentedLine "  cols: " "cols" rfl,
    append_headerLine "pe_config:\n" "pe_config:" rfl, append_indentedLine "  type: " "type" rfl,
    append_indentedLine "  frequency_mhz: " "frequency_mhz" rfl, ← hcustom]
  cases hworkload : config.workload.isEmpty <;>
  simp only [yamlLines, topLines, memoryLines, networkLines, peLines, hworkload, List.flatMap_append, List.flatMap_cons,
    List.flatMap_nil, List.append_assoc, List.append_nil, Bool.false_eq_true, if_true, if_false]

/-! ## The lines parsed -/

section Fold

variable {c c' : TraceConfig D} {section_ key value l : List UInt8} {ls : List (List UInt8)}

theorem fold_skip (h : readLine l = .skip) :
    (l :: ls).foldlM (parseLine n) (c, section_) = ls.foldlM (parseLine n) (c, section_) := by
  rw [List.foldlM_cons, parseLine, h]
  rfl

theorem fold_header {name : List UInt8} (h : readLine l = .header name) :
    (l :: ls).foldlM (parseLine n) (c, section_) = ls.foldlM (parseLine n) (c, name) := by
  rw [List.foldlM_cons, parseLine, h]
  rfl

theorem fold_setting (h : readLine l = .setting key value) :
    (l :: ls).foldlM (parseLine n) (c, section_) =
      (setKey n c section_ key value).bind fun c' => ls.foldlM (parseLine n) (c', section_) := by
  rw [List.foldlM_cons, parseLine, h]
  dsimp only
  cases setKey n c section_ key value <;> rfl

theorem blank_indent : ∀ c ∈ text "  ", isBlank c = true := List.all_eq_true.mp rfl

theorem fold_indented (hkey : Plain key) (hcolon : 58 ∉ key) (hvalue : Plain value) :
    (settingLine (text "  ") key value :: ls).foldlM (parseLine n) (c, section_) =
      (setKey n c section_ key value).bind fun c' => ls.foldlM (parseLine n) (c', section_) := by
  have hread := readLine_settingLine blank_indent hkey hcolon hvalue fun h => absurd h (by decide)
  have hindent : (text "  ").isEmpty = false := rfl
  rw [hindent, Bool.and_false] at hread
  exact fold_setting hread

theorem fold_set (hkey : Plain key) (hcolon : 58 ∉ key) (hvalue : Plain value)
    (hset : setKey n c section_ key value = .ok c') :
    (settingLine (text "  ") key value :: ls).foldlM (parseLine n) (c, section_) =
      ls.foldlM (parseLine n) (c', section_) := by
  rw [fold_indented hkey hcolon hvalue, hset]
  rfl

/-- A line that is not indented may read as a header, but only when it sets nothing. -/
theorem fold_top (hkey : Plain key) (hcolon : 58 ∉ key) (hhash : key.head? ≠ some 35) (hvalue : Plain value)
    (hset : setKey n c section_ key value = .ok c') (hempty : value = [] → c' = c) :
    (settingLine [] key value :: ls).foldlM (parseLine n) (c, section_) =
      ls.foldlM (parseLine n) (c', if value.isEmpty then key else section_) := by
  have hread := readLine_settingLine (fun _ hc => absurd hc List.not_mem_nil) hkey hcolon hvalue fun _ => hhash
  rw [List.isEmpty_nil, Bool.and_true] at hread
  cases value with
  | nil =>
    rw [hempty rfl]
    exact fold_header hread
  | cons v r =>
    rw [fold_setting hread, hset]
    rfl

end Fold

theorem map_stoul {α : Type} (x : UInt64) (f : UInt64 → α) : (stoul (putNat x.toNat)).map f = .ok (f x) := by
  rw [stoul_putNat x.toNat_lt, UInt64.ofNat_toNat]
  rfl

theorem map_stoul32 {α : Type} (x : UInt32) (f : UInt32 → α) :
    ((stoul (putNat x.toNat)).map fun v => f v.toUInt32) = .ok (f x) := by
  have hlt : x.toNat < 2 ^ 64 := Nat.lt_trans x.toNat_lt (by decide)
  have hnarrow : (UInt64.ofNat x.toNat).toUInt32 = x := by
    apply UInt32.toNat_inj.mp
    rw [UInt64.toNat_toUInt32, UInt64.toNat_ofNat_of_lt' hlt, Nat.mod_eq_of_lt x.toNat_lt]
  rw [stoul_putNat hlt]
  show Except.ok (f (UInt64.ofNat x.toNat).toUInt32) = _
  rw [hnarrow]

section Sections

variable (hplain : PlainConfig config) (c : TraceConfig D) (s : List UInt8) (rest : List (List UInt8))

include hplain

theorem fold_memoryLines : (memoryLines config ++ rest).foldlM (parseLine n) (c, s) =
    rest.foldlM (parseLine n) ({ c with
      memoryTechnology := config.memoryTechnology, channels := config.channels, ranksPerChannel := config.ranksPerChannel
      banks := config.banks, subarraysPerBank := config.subarraysPerBank }, text "memory_config") := by
  have htechnology (c : TraceConfig D) : setKey n c (text "memory_config") (text "technology") config.memoryTechnology =
      .ok { c with memoryTechnology := config.memoryTechnology } := rfl
  have hchannels (c : TraceConfig D) : setKey n c (text "memory_config") (text "channels") (putNat config.channels.toNat) =
      .ok { c with channels := config.channels } :=
    map_stoul32 config.channels fun v => ({ c with channels := v } : TraceConfig D)
  have hranks (c : TraceConfig D) : setKey n c (text "memory_config") (text "ranks_per_channel")
      (putNat config.ranksPerChannel.toNat) = .ok { c with ranksPerChannel := config.ranksPerChannel } :=
    map_stoul32 config.ranksPerChannel fun v => ({ c with ranksPerChannel := v } : TraceConfig D)
  have hbanks (c : TraceConfig D) : setKey n c (text "memory_config") (text "banks") (putNat config.banks.toNat) =
      .ok { c with banks := config.banks } :=
    map_stoul32 config.banks fun v => ({ c with banks := v } : TraceConfig D)
  have hsubarrays (c : TraceConfig D) : setKey n c (text "memory_config") (text "subarrays_per_bank")
      (putNat config.subarraysPerBank.toNat) = .ok { c with subarraysPerBank := config.subarraysPerBank } :=
    map_stoul32 config.subarraysPerBank fun v => ({ c with subarraysPerBank := v } : TraceConfig D)
  simp only [memoryLines, List.cons_append, List.nil_append]
  rw [fold_header (show readLine (text "memory_config:") = .header (text "memory_config") from rfl),
    fold_set (by decide) (by decide) hplain.memoryTechnology (htechnology _),
    fold_set (by decide) (by decide) (plain_putNat _) (hchannels _),
    fold_set (by decide) (by decide) (plain_putNat _) (hranks _),
    fold_set (by decide) (by decide) (plain_putNat _) (hbanks _),
    fold_set (by decide) (by decide) (plain_putNat _) (hsubarrays _)]

theorem fold_networkLines : (networkLines config ++ rest).foldlM (parseLine n) (c, s) =
    rest.foldlM (parseLine n) ({ c with
      nocTopology := config.nocTopology, nocRows := config.nocRows, nocCols := config.nocCols }, text "network_config") := by
  have htopology (c : TraceConfig D) : setKey n c (text "network_config") (text "topology") config.nocTopology =
      .ok { c with nocTopology := config.nocTopology } := rfl
  have hrows (c : TraceConfig D) : setKey n c (text "network_config") (text "rows") (putNat config.nocRows.toNat) =
      .ok { c with nocRows := config.nocRows } :=
    map_stoul32 config.nocRows fun v => ({ c with nocRows := v } : TraceConfig D)
  have hcols (c : TraceConfig D) : setKey n c (text "network_config") (text "cols") (putNat config.nocCols.toNat) =
      .ok { c with nocCols := config.nocCols } :=
    map_stoul32 config.nocCols fun v => ({ c with nocCols := v } : TraceConfig D)
  simp only [networkLines, List.cons_append, List.nil_append]
  rw [fold_header (show readLine (text "network_config:") = .header (text "network_config") from rfl),
    fold_set (by decide) (by decide) hplain.nocTopology (htopology _),
    fold_set (by decide) (by decide) (plain_putNat _) (hrows _),
    fold_set (by decide) (by decide) (plain_putNat _) (hcols _)]

theorem fold_peLines (hput : Plain (n.put config.frequencyMhz)) :
    (peLines n config ++ rest).foldlM (parseLine n) (c, s) = (stod n (n.put config.frequencyMhz)).bind fun d =>
      rest.foldlM (parseLine n) ({ c with peType := config.peType, frequencyMhz := d }, text "pe_config") := by
  have htype (c : TraceConfig D) : setKey n c (text "pe_config") (text "type") config.peType =
      .ok { c with peType := config.peType } := rfl
  have hfrequency (c : TraceConfig D) : setKey n c (text "pe_config") (text "frequency_mhz") (n.put config.frequencyMhz) =
      (stod n (n.put config.frequencyMhz)).map fun d => { c with frequencyMhz := d } := rfl
  simp only [peLines, List.cons_append, List.nil_append]
  rw [fold_header (show readLine (text "pe_config:") = .header (text "pe_config") from rfl), fold_set (by decide) (by decide) hplain.peType (htype _),
    fold_indented (by decide) (by decide) hput, hfrequency]
  cases stod n (n.put config.frequencyMhz) <;> rfl

theorem fold_topLines (hstamp : Plain timestamp) (d : D) :
    ∃ s', (topLines config timestamp ++ rest).foldlM (parseLine n) (.default d, []) =
      rest.foldlM (parseLine n) ({ TraceConfig.default d with
        generator := config.generator, timestamp, workload := config.workload, numEvents := config.numEvents
        numPes := config.numPes }, s') := by
  -- an empty string of a fresh configuration is as good as set
  have hgenerator (c : TraceConfig D) (s : List UInt8) (ls : List (List UInt8)) (hc : c.generator = []) :
      (settingLine [] (text "generator") config.generator :: ls).foldlM (parseLine n) (c, s) =
        ls.foldlM (parseLine n) ({ c with generator := config.generator },
          if config.generator.isEmpty then text "generator" else s) :=
    fold_top (by decide) (by decide) (by decide) hplain.generator rfl fun h => by rw [h, ← hc]
  have htimestamp (c : TraceConfig D) (s : List UInt8) (ls : List (List UInt8)) (hc : c.timestamp = []) :
      (settingLine [] (text "timestamp") timestamp :: ls).foldlM (parseLine n) (c, s) =
        ls.foldlM (parseLine n) ({ c with timestamp }, if timestamp.isEmpty then text "timestamp" else s) :=
    fold_top (by decide) (by decide) (by decide) hstamp rfl fun h => by rw [h, ← hc]
  have hworkload (c : TraceConfig D) (s : List UInt8) (ls : List (List UInt8)) (hc : c.workload = []) :
      (settingLine [] (text "workload") config.workload :: ls).foldlM (parseLine n) (c, s) =
        ls.foldlM (parseLine n) ({ c with workload := config.workload },
          if config.workload.isEmpty then text "workload" else s) :=
    fold_top (by decide) (by decide) (by decide) hplain.workload rfl fun h => by rw [h, ← hc]
  have hevents (c : TraceConfig D) (s : List UInt8) (ls : List (List UInt8)) :
      (settingLine [] (text "num_events") (putNat config.numEvents.toNat) :: ls).foldlM (parseLine n) (c, s) =
        ls.foldlM (parseLine n) ({ c with numEvents := config.numEvents },
          if (putNat config.numEvents.toNat).isEmpty then text "num_events" else s) :=
    fold_top (by decide) (by decide) (by decide) (plain_putNat _)
      (map_stoul config.numEvents fun v => ({ c with numEvents := v } : TraceConfig D)) fun h => absurd h putNat_ne_nil
  have hpes (c : TraceConfig D) (s : List UInt8) (ls : List (List UInt8)) :
      (settingLine [] (text "num_pes") (putNat config.numPes.toNat) :: ls).foldlM (parseLine n) (c, s) =
        ls.foldlM (parseLine n) ({ c with numPes := config.numPes },
          if (putNat config.numPes.toNat).isEmpty then text "num_pes" else s) :=
    fold_top (by decide) (by decide) (by decide) (plain_putNat _)
      (map_stoul32 config.numPes fun v => ({ c with numPes := v } : TraceConfig D)) fun h => absurd h putNat_ne_nil
  have hversion (c : TraceConfig D) (ls : List (List UInt8)) :
      (settingLine [] (text "version") (text "1.0") :: ls).foldlM (parseLine n) (c, []) =
        ls.foldlM (parseLine n) (c, if (text "1.0").isEmpty then text "version" else []) :=
    fold_top (by decide) (by decide) (by decide) (by decide) rfl fun _ => rfl
  have hcomment : readLine (text "# PIMID Trace v1.0") = .skip := rfl
  by_cases hempty : config.workload.isEmpty
  · have hnil : config.workload = [] := List.isEmpty_iff.mp hempty
    simp only [topLines, hempty, if_true, List.append_nil, List.cons_append, List.nil_append]
    rw [fold_skip hcomment, hversion, hgenerator _ _ _ rfl, htimestamp _ _ _ rfl, hevents, hpes, hnil]
    exact ⟨_, rfl⟩
  · simp only [topLines, hempty, List.cons_append, List.nil_append]
    rw [fold_skip hcomment, hversion, hgenerator _ _ _ rfl, htimestamp _ _ _ rfl]
    simp only [Bool.false_eq_true, if_false, List.cons_append, List.nil_append]
    rw [hworkload _ _ _ rfl, hevents, hpes]
    exact ⟨_, rfl⟩

end Sections

/-! ## The custom entries -/

theorem setKey_custom {c : TraceConfig D} {key value : List UInt8} (h : key ∉ topKeys) :
    setKey n c (text "custom") key value = .ok { c with customMetadata := mapSet key value c.customMetadata } := by
  rw [topKeys] at h
  simp only [List.mem_cons, List.not_mem_nil, or_false, not_or] at h
  obtain ⟨hversion, hgenerator, htimestamp, hworkload, hevents, hpes⟩ := h
  rw [setKey, if_neg hversion, if_neg hgenerator, if_neg htimestamp, if_neg hworkload, if_neg hevents, if_neg hpes,
    if_neg (by decide), if_neg (by decide), if_neg (by decide), if_pos rfl]

theorem mapSet_last {m : List (List UInt8 × List UInt8)} {key value : List UInt8} (h : ∀ kv ∈ m, kv.1 < key) :
    mapSet key value m = m ++ [(key, value)] := by
  induction m with
  | nil => rfl
  | cons kv r ih =>
    have hlt := h kv List.mem_cons_self
    have hne : key ≠ kv.1 := fun he => List.lt_irrefl _ (he ▸ hlt)
    rw [mapSet, if_neg hne, if_neg (List.lt_asymm hlt), ih fun kv' hkv' => h kv' (List.mem_cons_of_mem _ hkv')]
    rfl

theorem foldl_mapSet {kvs m : List (List UInt8 × List UInt8)} (h : (m ++ kvs).Pairwise fun kv kv' => kv.1 < kv'.1) :
    kvs.foldl (fun m kv => mapSet kv.1 kv.2 m) m = m ++ kvs := by
  induction kvs generalizing m with
  | nil => rw [List.append_nil, List.foldl_nil]
  | cons kv kvs ih =>
    have hlast : mapSet kv.1 kv.2 m = m ++ [(kv.1, kv.2)] :=
      mapSet_last fun kv' hkv' => (List.pairwise_append.mp h).2.2 kv' hkv' kv List.mem_cons_self
    rw [List.foldl_cons, hlast, ih (by rwa [List.append_assoc, List.singleton_append]), List.append_assoc,
      List.singleton_append]

theorem fold_customs {kvs : List (List UInt8 × List UInt8)}
    (hplain : ∀ kv ∈ kvs, Plain kv.1 ∧ 58 ∉ kv.1 ∧ Plain kv.2) (htop : ∀ kv ∈ kvs, kv.1 ∉ topKeys) (c : TraceConfig D) :
    (kvs.map fun kv => settingLine (text "  ") kv.1 kv.2).foldlM (parseLine n) (c, text "custom") =
      .ok ({ c with customMetadata := kvs.foldl (fun m kv => mapSet kv.1 kv.2 m) c.customMetadata }, text "custom") := by
  induction kvs generalizing c with
  | nil => rfl
  | cons kv kvs ih =>
    obtain ⟨hkey, hcolon, hvalue⟩ := hplain kv List.mem_cons_self
    rw [List.map_cons, fold_set hkey hcolon hvalue (setKey_custom (htop kv List.mem_cons_self)),
      ih (fun kv' hkv' => hplain kv' (List.mem_cons_of_mem _ hkv')) fun kv' hkv' => htop kv' (List.mem_cons_of_mem _ hkv')]
    rfl

theorem fold_customLines (hplain : PlainConfig config) (htop : NoTopKey config) {c : TraceConfig D}
    (hc : c.customMetadata = []) (s : List UInt8) :
    ((customLines config).foldlM (parseLine n) (c, s)).map Prod.fst =
      .ok { c with customMetadata := config.customMetadata } := by
  rw [customLines]
  split
  next hempty =>
    rw [List.isEmpty_iff.mp hempty, ← hc]
    rfl
  next =>
    have hall := foldl_mapSet (m := []) hplain.sorted
    rw [List.nil_append] at hall
    rw [fold_header (show readLine (text "custom:") = .header (text "custom") from rfl), fold_customs hplain.custom htop, hc, hall]
    rfl

/-! ## The round trip -/

theorem oneLine_settingLine {indent key value : List UInt8} (hindent : 10 ∉ indent) (hkey : 10 ∉ key) (hvalue : 10 ∉ value) :
    10 ∉ settingLine indent key value := by
  have hcolon : 10 ∉ text ": " := by decide
  rw [settingLine]
  simp only [List.mem_append, not_or]
  exact ⟨⟨⟨hindent, hkey⟩, hcolon⟩, hvalue⟩

theorem oneLine_yamlLines (hplain : PlainConfig config) (hstamp : Plain timestamp) (hput : Plain (n.put config.frequencyMhz)) :
    ∀ l ∈ yamlLines n config timestamp, 10 ∉ l := by
  have htop (k v : List UInt8) (hk : 10 ∉ k) (hv : Plain v) : 10 ∉ settingLine [] k v :=
    oneLine_settingLine List.not_mem_nil hk hv.oneLine
  have hin (k v : List UInt8) (hk : 10 ∉ k) (hv : Plain v) : 10 ∉ settingLine (text "  ") k v :=
    oneLine_settingLine (by decide) hk hv.oneLine
  have hnumber := fun k => plain_putNat k
  simp only [yamlLines, topLines, memoryLines, networkLines, peLines, List.forall_mem_append, List.forall_mem_cons]
  refine ⟨⟨⟨⟨by decide, htop _ _ (by decide) (by decide), htop _ _ (by decide) hplain.generator,
    htop _ _ (by decide) hstamp, fun _ h => absurd h List.not_mem_nil⟩, fun l hl => ?_⟩,
    htop _ _ (by decide) (hnumber _), htop _ _ (by decide) (hnumber _), fun _ h => absurd h List.not_mem_nil⟩,
    ⟨by decide, hin _ _ (by decide) hplain.memoryTechnology, hin _ _ (by decide) (hnumber _),
      hin _ _ (by decide) (hnumber _), hin _ _ (by decide) (hnumber _), hin _ _ (by decide) (hnumber _),
      fun _ h => absurd h List.not_mem_nil⟩,
    ⟨by decide, hin _ _ (by decide) hplain.nocTopology, hin _ _ (by decide) (hnumber _), hin _ _ (by decide) (hnumber _),
      fun _ h => absurd h List.not_mem_nil⟩,
    ⟨by decide, hin _ _ (by decide) hplain.peType, hin _ _ (by decide) hput, fun _ h => absurd h List.not_mem_nil⟩,
    fun l hl => ?_⟩
  · split at hl
    next => exact absurd hl List.not_mem_nil
    next =>
      rw [List.mem_singleton.mp hl]
      exact htop _ _ (by decide) hplain.workload
  · rw [customLines] at hl
    split at hl
    next => exact absurd hl List.not_mem_nil
    next =>
      rcases List.mem_cons.mp hl with rfl | hl
      · decide
      · obtain ⟨kv, hkv, rfl⟩ := List.mem_map.mp hl
        obtain ⟨hkey, -, hvalue⟩ := hplain.custom kv hkv
        exact hin _ _ hkey.oneLine hvalue

/-- What is read of the metadata of a configuration whose custom keys are its own. -/
theorem parse_generateYAML (hplain : PlainConfig config) (hstamp : Plain timestamp)
    (hput : Plain (n.put config.frequencyMhz)) (htop : NoTopKey config) (d : D) :
    parseYAMLMetadata n (.default d) (generateYAML n config timestamp) =
      (stod n (n.put config.frequencyMhz)).map fun f => { config with timestamp, frequencyMhz := f } := by
  have hlines : getlines (generateYAML n config timestamp) = yamlLines n config timestamp := by
    rw [generateYAML_eq]
    exact getlines_flatMap (oneLine_yamlLines hplain hstamp hput)
  obtain ⟨s, htopLines⟩ := fold_topLines (n := n) hplain
    (memoryLines config ++ (networkLines config ++ (peLines n config ++ customLines config))) hstamp d
  rw [parseYAMLMetadata, hlines, yamlLines, htopLines, fold_memoryLines hplain, fold_networkLines hplain,
    fold_peLines hplain _ _ _ hput]
  cases stod n (n.put config.frequencyMhz) with
  | error e => rfl
  | ok f => exact fold_customLines hplain htop rfl _

/-- **Trace metadata round-trips** if and only if no custom key is one of the top level
and the frequency is the double of its text. -/
theorem metadata_round_trip (n : Doubles D) (config : TraceConfig D) (timestamp : List UInt8) (d : D)
    (hplain : PlainConfig config) (hstamp : Plain timestamp) (hput : Plain (n.put config.frequencyMhz)) :
    parseYAMLMetadata n (.default d) (generateYAML n config timestamp) = .ok { config with timestamp } ↔
      (∀ kv ∈ config.customMetadata, kv.1 ∉ topKeys) ∧
        n.stod (n.put config.frequencyMhz) = some config.frequencyMhz := by
  constructor
  · intro hparse
    have htop : NoTopKey { config with timestamp } :=
      NoTopKey.parse (c := .default d) (fun kv hkv => absurd hkv List.not_mem_nil) hparse
    have htop : NoTopKey config := htop
    refine ⟨htop, ?_⟩
    rw [parse_generateYAML hplain hstamp hput htop, stod] at hparse
    cases hstod : n.stod (n.put config.frequencyMhz) with
    | none =>
      rw [hstod] at hparse
      cases hparse
    | some f =>
      rw [hstod] at hparse
      injection hparse with hparse
      have hf : f = config.frequencyMhz := congrArg TraceConfig.frequencyMhz hparse
      rw [hf]
  · rintro ⟨htop, hstod⟩
    rw [parse_generateYAML hplain hstamp hput htop, stod, hstod]
    rfl

/-- A configuration with a custom entry. -/
def withCustom (key value : List UInt8) : TraceConfig Nat := { TraceConfig.default 1000 with customMetadata := [(key, value)] }

theorem plainConfig_withCustom {key value : List UInt8} (hkey : Plain key) (hcolon : 58 ∉ key) (hvalue : Plain value) :
    PlainConfig (withCustom key value) := by
  have hnil : Plain [] := by decide
  refine ⟨hnil, hnil, hnil, hnil, hnil, fun kv hkv => ?_, List.pairwise_singleton _ _⟩
  rw [List.mem_singleton.mp hkv]
  exact ⟨hkey, hcolon, hvalue⟩

theorem metadata_round_trip_seed :
    parseYAMLMetadata wholes (.default 1) (generateYAML wholes (withCustom (text "rows") (text "7")) (text "now")) =
      .ok { withCustom (text "rows") (text "7") with timestamp := text "now" } :=
  (metadata_round_trip wholes (withCustom (text "rows") (text "7")) (text "now") 1
    (plainConfig_withCustom (by decide) (by decide) (by decide)) (by decide) (by decide)).mpr
    ⟨by decide, by decide⟩

/-- A custom entry under a key of the top level does not come back. -/
theorem workload_not_custom :
    parseYAMLMetadata wholes (.default 1) (generateYAML wholes (withCustom (text "workload") (text "x")) (text "now")) ≠
      .ok { withCustom (text "workload") (text "x") with timestamp := text "now" } := by
  intro hparse
  have htop := NoTopKey.parse (c := .default 1) (fun kv hkv => absurd hkv List.not_mem_nil) hparse
  exact htop (text "workload", text "x") List.mem_cons_self (by decide)

end Pimid.TraceFile
