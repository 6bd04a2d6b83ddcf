import Pimid.TraceFile.Format

/-!
# The metadata of a trace file

`generateYAML` writes the configuration one `key: value` a line, in sections;
`parseYAMLMetadata` reads it back line by line. A number is read by `std::stoul`,
`std::stoull` or `std::stod`, which throw when there is none.
-/

namespace Pimid.TraceFile

variable {D : Type}

/-! ## Writing -/

/-- `<<` of an unsigned number. -/
def putNat (n : Nat) : List UInt8 := (Nat.toDigits 10 n).map fun c => c.toNat.toUInt8

def generateYAML (n : Doubles D) (config : TraceConfig D) (timestamp : List UInt8) : List UInt8 :=
  text "# PIMID Trace v" ++ putNat traceVersionMajor ++ text "." ++ putNat traceVersionMinor ++ text "\n" ++
  text "version: " ++ putNat traceVersionMajor ++ text "." ++ putNat traceVersionMinor ++ text "\n" ++
  text "generator: " ++ config.generator ++ text "\n" ++
  text "timestamp: " ++ timestamp ++ text "\n" ++
  (if config.workload.isEmpty then [] else text "workload: " ++ config.workload ++ text "\n") ++
  text "num_events: " ++ putNat config.numEvents.toNat ++ text "\n" ++
  text "num_pes: " ++ putNat config.numPes.toNat ++ text "\n" ++
  text "memory_config:\n" ++
  text "  technology: " ++ config.memoryTechnology ++ text "\n" ++
  text "  channels: " ++ putNat config.channels.toNat ++ text "\n" ++
  text "  ranks_per_channel: " ++ putNat config.ranksPerChannel.toNat ++ text "\n" ++
  text "  banks: " ++ putNat config.banks.toNat ++ text "\n" ++
  text "  subarrays_per_bank: " ++ putNat config.subarraysPerBank.toNat ++ text "\n" ++
  text "network_config:\n" ++
  text "  topology: " ++ config.nocTopology ++ text "\n" ++
  text "  rows: " ++ putNat config.nocRows.toNat ++ text "\n" ++
  text "  cols: " ++ putNat config.nocCols.toNat ++ text "\n" ++
  text "pe_config:\n" ++
  text "  type: " ++ config.peType ++ text "\n" ++
  text "  frequency_mhz: " ++ n.put config.frequencyMhz ++ text "\n" ++
  (if config.customMetadata.isEmpty then []
    else text "custom:\n" ++ config.customMetadata.flatMap fun kv => text "  " ++ kv.1 ++ text ": " ++ kv.2 ++ text "\n")

/-- What `writeYAMLMetadata` writes. -/
def metadata (n : Doubles D) (config : TraceConfig D) (timestamp : List UInt8) : List UInt8 :=
  generateYAML n config timestamp ++ text "---\n"

/-! ## Numbers -/

def isSpace (c : UInt8) : Bool := c == 32 || (9 ≤ c && c ≤ 13)

def isDigit (c : UInt8) : Bool := 48 ≤ c && c ≤ 57

/-- The number that the digits at the front make. -/
def digits (l : List UInt8) : Nat := (l.takeWhile isDigit).foldl (fun v c => 10 * v + (c.toNat - 48)) 0

/-- `std::stoul` and `std::stoull`: white space, a sign, then at least one digit. -/
def stoul (l : List UInt8) : Except Thrown UInt64 :=
  let l₁ := l.dropWhile isSpace
  let minus := l₁.head? == some 45
  let l₂ := if minus || l₁.head? == some 43 then l₁.tail else l₁
  if (l₂.takeWhile isDigit).isEmpty then .error .invalidArgument
  else if digits l₂ ≥ 2 ^ 64 then .error .outOfRange
  else .ok (if minus then -(.ofNat (digits l₂)) else .ofNat (digits l₂))

/-- `std::stod` -/
def stod (n : Doubles D) (l : List UInt8) : Except Thrown D :=
  match n.stod l with
  | some d => .ok d
  | none => .error .invalidArgument

/-! ## Reading -/

/-- The lines that `std::getline` gives. -/
def getlines : List UInt8 → List (List UInt8)
  | [] => []
  | c :: r =>
    if c = 10 then [] :: getlines r
    else
      match getlines r with
      | [] => [[c]]
      | l :: ls => (c :: l) :: ls

def isBlank (c : UInt8) : Bool := c == 32 || c == 9

def trim (l : List UInt8) : List UInt8 := ((l.dropWhile isBlank).reverse.dropWhile isBlank).reverse

/-- `custom_metadata[key] = value` -/
def mapSet (key value : List UInt8) : List (List UInt8 × List UInt8) → List (List UInt8 × List UInt8)
  | [] => [(key, value)]
  | kv :: r =>
    if key = kv.1 then (key, value) :: r
    else if key < kv.1 then (key, value) :: kv :: r
    else kv :: mapSet key value r

/-- `config_` with the value of a key. The section is that of the last section header. -/
def setKey (n : Doubles D) (config : TraceConfig D) (section_ key value : List UInt8) : Except Thrown (TraceConfig D) :=
  if key = text "version" then .ok config
  else if key = text "generator" then .ok { config with generator := value }
  else if key = text "timestamp" then .ok { config with timestamp := value }
  else if key = text "workload" then .ok { config with workload := value }
  else if key = text "num_events" then (stoul value).map fun v => { config with numEvents := v }
  else if key = text "num_pes" then (stoul value).map fun v => { config with numPes := v.toUInt32 }
  else if section_ = text "memory_config" then
    if key = text "technology" then .ok { config with memoryTechnology := value }
    else if key = text "channels" then (stoul value).map fun v => { config with channels := v.toUInt32 }
    else if key = text "ranks_per_channel" then (stoul value).map fun v => { config with ranksPerChannel := v.toUInt32 }
    else if key = text "banks" then (stoul value).map fun v => { config with banks := v.toUInt32 }
    else if key = text "subarrays_per_bank" then (stoul value).map fun v => { config with subarraysPerBank := v.toUInt32 }
    else .ok config
  else if section_ = text "network_config" then
    if key = text "topology" then .ok { config with nocTopology := value }
    else if key = text "rows" then (stoul value).map fun v => { config with nocRows := v.toUInt32 }
    else if key = text "cols" then (stoul value).map fun v => { config with nocCols := v.toUInt32 }
    else .ok config
  else if section_ = text "pe_config" then
    if key = text "type" then .ok { config with peType := value }
    else if key = text "frequency_mhz" then (stod n value).map fun v => { config with frequencyMhz := v }
    else .ok config
  else if section_ = text "custom" then
    .ok { config with customMetadata := mapSet key value config.customMetadata }
  else .ok config

/-- What a line says. -/
inductive Line where
  | skip
  | header (name : List UInt8)
  | setting (key value : List UInt8)

/-- The split of a line at its first colon. A header has no value and no indent. -/
def readLine (line : List UInt8) : Line :=
  if line.isEmpty || line.head? == some 35 || line == text "---" then .skip
  else
    match line.findIdx? (· == 58) with
    | none => .skip
    | some colon =>
      let key := trim (line.take colon)
      let value := trim (line.drop (colon + 1))
      if value.isEmpty && line.head? != some 32 && line.head? != some 9 then .header key else .setting key value

/-- One line, with the configuration and the section so far. -/
def parseLine (n : Doubles D) (s : TraceConfig D × List UInt8) (line : List UInt8) :
    Except Thrown (TraceConfig D × List UInt8) :=
  match readLine line with
  | .skip => .ok s
  | .header name => .ok (s.1, name)
  | .setting key value => (setKey n s.1 s.2 key value).map fun config => (config, s.2)

def parseYAMLMetadata (n : Doubles D) (config : TraceConfig D) (yaml : List UInt8) : Except Thrown (TraceConfig D) :=
  ((getlines yaml).foldlM (parseLine n) (config, [])).map Prod.fst

/-! ## Metadata that reads back

Whether `parseYAMLMetadata` throws depends on the text only. -/

/-- The value of a key is a number where one is read. -/
def keyReads (n : Doubles D) (section_ key value : List UInt8) : Bool :=
  if key = text "version" then true
  else if key = text "generator" then true
  else if key = text "timestamp" then true
  else if key = text "workload" then true
  else if key = text "num_events" then (stoul value).isOk
  else if key = text "num_pes" then (stoul value).isOk
  else if section_ = text "memory_config" then
    if key = text "technology" then true
    else if key = text "channels" then (stoul value).isOk
    else if key = text "ranks_per_channel" then (stoul value).isOk
    else if key = text "banks" then (stoul value).isOk
    else if key = text "subarrays_per_bank" then (stoul value).isOk
    else true
  else if section_ = text "network_config" then
    if key = text "topology" then true
    else if key = text "rows" then (stoul value).isOk
    else if key = text "cols" then (stoul value).isOk
    else true
  else if section_ = text "pe_config" then
    if key = text "type" then true
    else if key = text "frequency_mhz" then (n.stod value).isSome
    else true
  else if section_ = text "custom" then true
  else true

def linesRead (n : Doubles D) : List UInt8 → List (List UInt8) → Bool
  | _, [] => true
  | section_, l :: ls =>
    match readLine l with
    | .skip => linesRead n section_ ls
    | .header name => linesRead n name ls
    | .setting key value => keyReads n section_ key value && linesRead n section_ ls

/-- Every number that a line of the text sets is one. -/
def yamlReads (n : Doubles D) (yaml : List UInt8) : Bool := linesRead n [] (getlines yaml)

@[simp] theorem isOk_ok {α : Type} (x : α) : (Except.ok x : Except Thrown α).isOk = true := rfl

@[simp] theorem isOk_map {α β : Type} (x : Except Thrown α) (f : α → β) : (x.map f).isOk = x.isOk := by
  cases x <;> rfl

theorem isOk_stod (n : Doubles D) (l : List UInt8) : (stod n l).isOk = (n.stod l).isSome := by
  rw [stod]
  cases n.stod l <;> rfl

theorem isOk_setKey (n : Doubles D) (config : TraceConfig D) (section_ key value : List UInt8) :
    (setKey n config section_ key value).isOk = keyReads n section_ key value := by
  simp only [setKey, keyReads, apply_ite Except.isOk, isOk_ok, isOk_map, isOk_stod]

theorem isOk_foldlM (n : Doubles D) (lines : List (List UInt8)) (s : TraceConfig D × List UInt8) :
    (lines.foldlM (parseLine n) s).isOk = linesRead n s.2 lines := by
  induction lines generalizing s with
  | nil => rfl
  | cons l ls ih =>
    rw [List.foldlM_cons, linesRead, parseLine]
    cases readLine l with
    | skip => exact ih s
    | header name => exact ih (s.1, name)
    | setting key value =>
      dsimp only
      have hkey := isOk_setKey n s.1 s.2 key value
      cases hset : setKey n s.1 s.2 key value with
      | error e =>
        rw [hset] at hkey
        rw [← hkey]
        rfl
      | ok config =>
        rw [hset] at hkey
        rw [← hkey]
        exact ih (config, s.2)

/-- **The metadata parses unless a line sets a number to something else.** -/
theorem parseYAMLMetadata_isOk (n : Doubles D) (config : TraceConfig D) (yaml : List UInt8) :
    (parseYAMLMetadata n config yaml).isOk = yamlReads n yaml := by
  rw [parseYAMLMetadata, isOk_map, isOk_foldlM, yamlReads]

end Pimid.TraceFile
