import AsrServiceProxy.App.BdAsrService
import AsrServiceProxy.Utils.StringUtil.Cleaning

-- The configuration of the service: its defaults, the file that it is loaded from, and
-- the command line.
namespace AsrServiceProxy

open CMemory

def Json.Value.isNull : Json.Value → Bool
  | .nullValue => true
  | _ => false

-- A double is zero when its text has no other digit in front of the exponent.
def Json.Value.asBool : Json.Value → Except Exn Bool
  | .nullValue => .ok false
  | .booleanValue b => .ok b
  | .intValue n => .ok (n ≠ 0)
  | .uintValue n => .ok (n ≠ 0)
  | .realValue text =>
      .ok ((text.takeWhile (· ≠ 101)).any fun b => StringUtil.isdigit b && b ≠ 48)
  | .stringValue _ | .arrayValue _ | .objectValue _ =>
      .error (.jsonLogicError "Value is not convertible to bool.")

namespace App

open StringUtil

-- The members that can be set, in the order of `opt_id_t`.
inductive Setting where
  | asrApiSource
  | appKey
  | appSecretKey
  | asrServer
  | audioFormat
  | audioType
  | capacityScope
  | concurrentNumber
  | enableAsrService
  | logOffMs
  | serverPort
deriving DecidableEq, Repr

-- The class with all its members but the working directory.
structure ServiceConfig extends Config where
  asrApiSource : Bytes
  capacityScope : Bytes
  concurrentNumber : ℤ
  enableAsrService : Bool
  logOffMs : ℤ
  serverPort : ℤ
deriving DecidableEq, Repr

-- `init_default`, and the initializer of the one member that it leaves alone.
def initDefault : ServiceConfig :=
  { asrApiSource := ascii "baidu"
    appKey := ascii "kVcnfD9iW2XVZSMaLMrtLYIz"
    appSecretKey := ascii "O9o1O213UgG5LFn0bDGNtoRN3VWl2du6"
    asrServer := ascii "http://vop.baidu.com/server_api"
    audioFormat := ascii "pcm"
    audioType := 1537
    capacityScope := ascii "audio_voice_assistant_get"
    concurrentNumber := 2
    enableAsrService := true
    logOffMs := 2000
    serverPort := 8005 }

namespace ServiceConfig

variable (conf : ServiceConfig) (optarg : Bytes)

def setEnableAsrService (enable : Bool) : ServiceConfig := { conf with enableAsrService := enable }

def setAppKey : ServiceConfig := { conf with appKey := cstr optarg }

def setAppsecretKey : ServiceConfig := { conf with appSecretKey := cstr optarg }

def setAsrapiSource : ServiceConfig := { conf with asrApiSource := cstr optarg }

def setAsrServer : ServiceConfig := { conf with asrServer := cstr optarg }

def setAudioFormat : ServiceConfig := { conf with audioFormat := cstr optarg }

def setAudioType : ServiceConfig := { conf with audioType := atoi optarg }

def setCapacityScope : ServiceConfig := { conf with capacityScope := cstr optarg }

def setConcurrentNumber : ServiceConfig := { conf with concurrentNumber := atoi optarg }

def setLogoffMs : ServiceConfig := { conf with logOffMs := atoi optarg }

def setServerPort : ServiceConfig := { conf with serverPort := atoi optarg }

-- The `switch` of `load_command_line`.
def setOption : Setting → ServiceConfig
  | .asrApiSource => conf.setAsrapiSource optarg
  | .appKey => conf.setAppKey optarg
  | .appSecretKey => conf.setAppsecretKey optarg
  | .asrServer => conf.setAsrServer optarg
  | .audioFormat => conf.setAudioFormat optarg
  | .audioType => conf.setAudioType optarg
  | .capacityScope => conf.setCapacityScope optarg
  | .concurrentNumber => conf.setConcurrentNumber optarg
  | .enableAsrService => conf.setEnableAsrService (toBool optarg)
  | .logOffMs => conf.setLogoffMs optarg
  | .serverPort => conf.setServerPort optarg

end ServiceConfig

-- The content that is read from a file, and its length; `none` when no NUL ends it.
-- `adjacent` is the memory behind the buffer, which has no room for a terminator.
def readFileContent (file : Option Bytes) (adjacent : Bytes) : Option (Bytes × ℤ) :=
  match file with
  | none => some ([], 0)
  | some content =>
      let length := intOfSize content.length
      if length ≤ 0 ∨ 2147483647 / 4 < length then some ([], 0)
      else
        let mem := content.take length.toNat ++ adjacent
        if 0 ∈ mem then some (cstr mem, length) else none

namespace Setting

def fileKey : Setting → Bytes
  | .asrApiSource => ascii "asr_api_source"
  | .appKey => ascii "app_key"
  | .appSecretKey => ascii "app_secret_key"
  | .asrServer => ascii "asr_server"
  | .audioFormat => ascii "audio_format"
  | .audioType => ascii "audio_type"
  | .capacityScope => ascii "capacity_scope"
  | .concurrentNumber => ascii "concurrent_number"
  | .enableAsrService => ascii "enable_asr_service"
  | .logOffMs => ascii "log_off_ms"
  | .serverPort => ascii "server_port"

-- In the order of `load_from_file`.
def fileOrder : List Setting :=
  [.enableAsrService, .asrApiSource, .appKey, .appSecretKey, .asrServer, .audioFormat, .audioType,
    .capacityScope, .concurrentNumber, .logOffMs, .serverPort]

end Setting

def ServiceConfig.setMember (conf : ServiceConfig) (value : Json.Value) :
    Setting → Except Exn ServiceConfig
  | .enableAsrService => value.asBool.map conf.setEnableAsrService
  | s => (value.asString >>= trim).map fun text => conf.setOption text s

-- One member of the configuration in the file.
def loadSetting (configuration : Json.Value) (conf : ServiceConfig) (s : Setting) :
    Except Exn ServiceConfig := do
  let value ← configuration.member s.fileKey
  if value.isNull then .ok conf else conf.setMember value s

-- `read` is what `read_file_content` gave.
def loadFromFile (reader : Json.Reader) (read : Bytes × ℤ) (conf : ServiceConfig) :
    Except Exn ServiceConfig :=
  if read.2 = 0 then .ok conf
  else
    match loadJson reader read.1 with
    | none => .ok conf
    | some json => do
        if json.isNull then .ok conf
        else
          let configuration ← json.member (ascii "configuration")
          if configuration.isNull then .ok conf
          else Setting.fileOrder.foldlM (loadSetting configuration) conf

-- `Config::Config`
def construct (reader : Json.Reader) (read : Bytes × ℤ) : Except Exn ServiceConfig :=
  loadFromFile reader read initDefault

-- `struct option`; an address of 0 is NULL.
structure LongOption where
  name : Bytes
  hasArg : Bool
  flag : ℕ
  val : ℤ
deriving DecidableEq, Repr

def OPT_HELP : ℤ := 0

-- `s_long_options`
def longOptions : List LongOption :=
  [{ name := ascii "help", hasArg := false, flag := 0, val := OPT_HELP },
    { name := ascii "asr-api-source", hasArg := true, flag := 0, val := 1 },
    { name := ascii "app-key", hasArg := true, flag := 0, val := 2 },
    { name := ascii "app-secret-key", hasArg := true, flag := 0, val := 3 },
    { name := ascii "asr-server", hasArg := true, flag := 0, val := 4 },
    { name := ascii "audio-format", hasArg := true, flag := 0, val := 5 },
    { name := ascii "audio-type", hasArg := true, flag := 0, val := 6 },
    { name := ascii "capacity-scope", hasArg := true, flag := 0, val := 7 },
    { name := ascii "concurrent-number", hasArg := true, flag := 0, val := 8 },
    { name := ascii "enable-asr-service", hasArg := true, flag := 0, val := 9 },
    { name := ascii "log-off-ms", hasArg := true, flag := 2000, val := 10 },
    { name := ascii "server-port", hasArg := true, flag := 8005, val := 11 }]

-- The case of the `switch` that a value belongs to.
def settingOfOpt : ℤ → Option Setting
  | 1 => some .asrApiSource
  | 2 => some .appKey
  | 3 => some .appSecretKey
  | 4 => some .asrServer
  | 5 => some .audioFormat
  | 6 => some .audioType
  | 7 => some .capacityScope
  | 8 => some .concurrentNumber
  | 9 => some .enableAsrService
  | 10 => some .logOffMs
  | 11 => some .serverPort
  | _ => none

-- What a call of `getopt_long_only` gives: its value, `optarg`, and what it stores
-- through a flag.
structure Found where
  opt : ℤ
  optarg : Option Bytes
  stored : Option (ℕ × ℤ)
deriving DecidableEq, Repr

def LongOption.found (o : LongOption) (optarg : Option Bytes) : Found :=
  if o.flag = 0 then { opt := o.val, optarg := optarg, stored := none }
  else { opt := 0, optarg := optarg, stored := some (o.flag, o.val) }

-- `?`
def unknownOption : Found := { opt := 63, optarg := none, stored := none }

-- The text behind the dashes of an option.
def optionText : Bytes → Option Bytes
  | [45] => none
  | 45 :: 45 :: text => some text
  | 45 :: text => some text
  | _ => none

-- A name may be cut short as long as only one option begins with it.
def findOption (options : List LongOption) (name : Bytes) : Option LongOption :=
  match options.find? fun o => o.name = name with
  | some o => some o
  | none =>
      match options.filter fun o => name.isPrefixOf o.name with
      | [o] => some o
      | _ => none

-- `getopt_long_only`, as its manual has it, and the elements that it has not come to.
-- `none` is the end of the options; an element that is no option is left for later.
def getoptLongOnly (options : List LongOption) : List Bytes → Option (Found × List Bytes)
  | [] => none
  | element :: rest =>
      if element = [45, 45] then none
      else
        match optionText element with
        | none => getoptLongOnly options rest
        | some text =>
            match findOption options (text.takeWhile (· ≠ 61)) with
            | none => some (unknownOption, rest)
            | some o =>
                match o.hasArg, text.dropWhile (· ≠ 61), rest with
                | true, _ :: value, rest => some (o.found (some value), rest)
                | true, [], value :: rest => some (o.found (some value), rest)
                | true, [], [] => some (unknownOption, [])
                | false, [], rest => some (o.found none, rest)
                | false, _ :: _, rest => some (unknownOption, rest)

-- White space and quotation marks.
def isMark (b : UInt8) : Bool := isspace b || b = 34 || b = 39

-- The second loop stops at the first character that is kept.
def cleanOpt (opt : Bytes) : Bytes :=
  match (cstr opt).dropWhile isMark with
  | [] => []
  | b :: rest => b :: (rest.reverse.dropWhile isMark).reverse

structure CommandLine where
  ret : ℤ
  conf : ServiceConfig
  stores : List (ℕ × ℤ)
deriving DecidableEq, Repr

def loadCommandLineLoop : ℕ → List Bytes → ServiceConfig → List (ℕ × ℤ) → Option CommandLine
  | 0, _, _, _ => none
  | n + 1, argv, conf, stores =>
      match getoptLongOnly longOptions argv with
      | none => some { ret := 0, conf := conf, stores := stores }
      | some (found, rest) =>
          let stores := stores ++ found.stored.toList
          if found.opt = 104 ∨ found.opt = OPT_HELP then
            some { ret := 1, conf := conf, stores := stores }
          else
            match settingOfOpt found.opt, found.optarg with
            | some s, some optarg =>
                loadCommandLineLoop n rest (conf.setOption (cleanOpt optarg) s) stores
            | _, _ => loadCommandLineLoop n rest conf stores

-- The first element of `argv` is the program. Every round takes an element.
def loadCommandLine (argv : List Bytes) (conf : ServiceConfig) : Option CommandLine :=
  loadCommandLineLoop (argv.length + 1) (argv.drop 1) conf []

end App

end AsrServiceProxy
