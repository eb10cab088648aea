import Dobby.Base.Files
import Dobby.Base.Lines
import Dobby.Base.Trim
import Dobby.Model.Config

namespace Dobby.Conf
open CString Lines

/-- The environment of a process. -/
abbrev Env := Str → Option Str

/-- `setenv` with `overwrite` 0. -/
def setenv (env : Env) (key value : Str) : Env :=
  if (env key).isSome then env else Function.update env key (some value)

def skipSpace (s : Str) : Str := s.dropWhile isSpace

/-- Strips matching outer quotes. -/
def unquote (val : Str) : Str :=
  if 2 ≤ val.length ∧ ((val.head? = some '"' ∧ val.getLast? = some '"') ∨
      (val.head? = some '\'' ∧ val.getLast? = some '\'')) then (val.drop 1).dropLast
  else val

/-- The variable that a line of the `.env` file sets. -/
def envLine (line : Str) : Option (Str × Str) :=
  let s := skipSpace ((cstr line).rdropWhile (fun c => c = '\n' || c = '\r'))
  match s with
  | [] => none
  | c :: _ =>
    if c = '#' ∨ c = ';' then none
    else
      let s := skipSpace (if "export ".toList.isPrefixOf s then s.drop 7 else s)
      if '=' ∈ s then
        let key := (s.takeWhile (fun c => c ≠ '=')).rdropWhile isSpace
        let val := skipSpace ((s.dropWhile (fun c => c ≠ '=')).drop 1)
        if key = [] then none else some (key, unquote val)
      else none

/-- One turn of the loop of `env_load`, with its count. -/
def envTurn (st : Nat × Env) (line : Str) : Nat × Env :=
  match envLine line with
  | none => st
  | some (key, val) => (st.1 + 1, setenv st.2 key val)

def envLoad (env : Env) (file : Option Str) : Nat × Env :=
  match file with
  | none => (0, env)
  | some text => (fgetsAll 1024 text).foldl envTurn (0, env)

/-- One turn of the loop of `config_load`, with the current section. -/
def confTurn (st : Str × Config) (line : Str) : Str × Config :=
  let s := skipSpace (cstr line)
  match s with
  | [] => st
  | c :: rest =>
    if c = '#' ∨ c = ';' then st
    else if c = '[' then
      if ']' ∈ s then (snprintf maxKeyLen (rest.takeWhile (fun c => c ≠ ']')), st.2) else st
    else if '=' ∈ s then
      let key := strTrim (s.takeWhile (fun c => c ≠ '='))
      let val := strTrim ((s.dropWhile (fun c => c ≠ '=')).drop 1)
      let val := if val.getLast? = some '\n' then val.dropLast else val
      (st.1, configSet st.2 st.1 key val)
    else st

def configLoad (file : Option Str) : Config :=
  match file with
  | none => configCreate
  | some text => ((fgetsAll 1024 text).foldl confTurn ("general".toList, configCreate)).2

/-- What `boot` looks a setting up by. -/
structure Setting where
  env : Str
  sec : Str
  key : Str
  defaultVal : Option Str

def envOrCfg (env : Env) (cfg : Config) (s : Setting) : Option Str :=
  match env s.env with
  | some (c :: cs) => some (c :: cs)
  | _ => configGet cfg s.sec s.key s.defaultVal

/-- The fields of `cli_args_t` that `boot` reads. -/
structure CliArgs where
  logLevel : Option Str
  logFile : Option Str
  config : Option Str

inductive LogLevel where
  | debug
  | info
  | warn
  | error
  deriving DecidableEq

def levelOf (src : Str) : LogLevel :=
  if src = "debug".toList then .debug
  else if src = "info".toList then .info
  else if src = "error".toList then .error
  else .warn

def isEmpty (s : Option Str) : Bool := s.getD [] == []

/-- A null configuration has no level. -/
def resolveLogLevel (env : Env) (flag : Option Str) (cfg : Option Config) : LogLevel :=
  let src := env "LOG_LEVEL".toList
  let src := if isEmpty src then flag else src
  let src := match cfg with
    | some cfg => if isEmpty src then configGet cfg "logging".toList "level".toList none else src
    | none => src
  if isEmpty src then .warn else levelOf (src.getD [])

def workspaceSetting : Setting :=
  ⟨"WORKSPACE".toList, "paths".toList, "workspace".toList, some "~/.dobby".toList⟩
def tmuxSocketSetting : Setting :=
  ⟨"TMUX_SOCKET".toList, "tmux".toList, "socket".toList, some "/tmp/dobby-tmux.sock".toList⟩
def tmplDirSetting : Setting :=
  ⟨"TEMPLATE_DIR".toList, "paths".toList, "templates".toList, some "templates".toList⟩
def skillsSrcSetting : Setting :=
  ⟨"SKILLS_SRC".toList, "paths".toList, "skills_src".toList, some "skills".toList⟩
def allowlistSetting : Setting :=
  ⟨"ALLOWLIST".toList, "security".toList, "allowlist".toList, some "allowlist.conf".toList⟩
def providerTypeSetting : Setting :=
  ⟨"PROVIDER".toList, "provider".toList, "type".toList, some "ollama".toList⟩
def modelSetting : Setting := ⟨"MODEL".toList, "provider".toList, "model".toList, none⟩
def apiUrlSetting : Setting := ⟨"API_URL".toList, "provider".toList, "api_url".toList, none⟩
def apiKeySetting : Setting := ⟨"API_KEY".toList, "provider".toList, "api_key".toList, none⟩

/-- `~` at the front of the workspace stands for the home directory. -/
def expandWorkspace (home : Option Str) (wsRaw : Str) : Str :=
  match wsRaw, isEmpty home with
  | '~' :: '/' :: rest, false => snprintf 512 (home.getD [] ++ '/' :: rest)
  | ['~'], false => snprintf 512 (home.getD [])
  | _, _ => snprintf 512 wsRaw

/-- What `boot` resolves. -/
structure Booted where
  env : Env
  cfg : Config
  logLevel : LogLevel
  logFile : Option Str
  wsRaw : Option Str
  workspace : Str
  sock : Option Str
  tmplDir : Option Str
  skillsSrc : Option Str
  allowlist : Option Str
  providerType : Option Str
  model : Option Str
  apiUrl : Option Str
  apiKey : Option Str

def envPath (shell : Env) : Str :=
  if isEmpty (shell "ENV_FILE".toList) then ".env".toList else (shell "ENV_FILE".toList).getD []

/-- The environment once the `.env` file is loaded. -/
def bootEnv (fs : Fs) (shell : Env) : Env := (envLoad shell (fs (envPath shell))).2

def cfgPath (env : Env) (args : CliArgs) : Str :=
  let path := args.config.or (env "CONFIG".toList)
  if isEmpty path then "dobby.conf".toList else path.getD []

def bootCfg (fs : Fs) (shell : Env) (args : CliArgs) : Config :=
  configLoad (fs (cfgPath (bootEnv fs shell) args))

/-- `boot`, up to the settings of the provider. -/
def boot (fs : Fs) (shell : Env) (args : CliArgs) : Booted :=
  let env := bootEnv fs shell
  let cfg := bootCfg fs shell args
  let logFile := (args.logFile.or (env "LOG_FILE".toList)).or
    (configGet cfg "logging".toList "file".toList none)
  let wsRaw := envOrCfg env cfg workspaceSetting
  let sock := envOrCfg env cfg tmuxSocketSetting
  let exported := setenv env "TMUX_SOCKET".toList (sock.getD [])
  { env := exported
    cfg := cfg
    logLevel := resolveLogLevel env args.logLevel (some cfg)
    logFile := logFile
    wsRaw := wsRaw
    workspace := expandWorkspace (env "HOME".toList) (wsRaw.getD [])
    sock := sock
    tmplDir := envOrCfg exported cfg tmplDirSetting
    skillsSrc := envOrCfg exported cfg skillsSrcSetting
    allowlist := envOrCfg exported cfg allowlistSetting
    providerType := envOrCfg exported cfg providerTypeSetting
    model := envOrCfg exported cfg modelSetting
    apiUrl := envOrCfg exported cfg apiUrlSetting
    apiKey := envOrCfg exported cfg apiKeySetting }

end Dobby.Conf
