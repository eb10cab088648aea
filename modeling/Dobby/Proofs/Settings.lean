import Dobby.Model.Boot

namespace Dobby.Conf
open CString Lines

/-- The first source with a value that is not empty. -/
def firstSupplied (sources : List (Option Str)) : Option Str :=
  (sources.find? (fun s => !isEmpty s)).join

/-- The variables that a `.env` file sets, in its order. -/
def assignments (file : Option Str) : List (Str × Str) :=
  match file with
  | none => []
  | some text => (fgetsAll 1024 text).filterMap envLine

section Sources
variable (fs : Fs) (shell : Env) (args : CliArgs)

/-- A variable that the file sets twice has the first value. -/
def dotenv (name : Str) : Option Str := (assignments (fs (envPath shell))).lookup name

def inConf (sec key : Str) : Option Str := configGet (bootCfg fs shell args) sec key none

def sourcesOf (s : Setting) : List (Option Str) :=
  [shell s.env, dotenv fs shell s.env, inConf fs shell args s.sec s.key, s.defaultVal]

def logLevelName : Str := "LOG_LEVEL".toList

def logSources : List (Option Str) :=
  [args.logLevel, shell logLevelName, dotenv fs shell logLevelName,
    inConf fs shell args "logging".toList "level".toList, some "warn".toList]

/-- The settings that go through `env_or_cfg`, with what `boot` makes of them. -/
def resolved (b : Booted) : List (Setting × Option Str) :=
  [(workspaceSetting, b.wsRaw), (tmuxSocketSetting, b.sock), (tmplDirSetting, b.tmplDir),
    (skillsSrcSetting, b.skillsSrc), (allowlistSetting, b.allowlist),
    (providerTypeSetting, b.providerType), (modelSetting, b.model), (apiUrlSetting, b.apiUrl),
    (apiKeySetting, b.apiKey)]

def settings : List Setting :=
  [workspaceSetting, tmuxSocketSetting, tmplDirSetting, skillsSrcSetting, allowlistSetting,
    providerTypeSetting, modelSetting, apiUrlSetting, apiKeySetting]

/-- Each setting and the log level come from the first source that has a value for them. -/
def InOrder : Prop :=
  (∀ p ∈ resolved (boot fs shell args),
    ∀ v, firstSupplied (sourcesOf fs shell args p.1) = some v → p.2 = some v) ∧
  ∀ v, firstSupplied (logSources fs shell args) = some v → (boot fs shell args).logLevel = levelOf v

/-- A variable set but empty in the shell hides no other value of the `.env` file, and an
empty entry of `dobby.conf` no default. -/
def NotHidden (s : Setting) : Prop :=
  (shell s.env = some [] → isEmpty (dotenv fs shell s.env) = false →
    (inConf fs shell args s.sec s.key).or s.defaultVal = dotenv fs shell s.env) ∧
  (isEmpty (shell s.env) = true → isEmpty (dotenv fs shell s.env) = true →
    inConf fs shell args s.sec s.key = some [] → isEmpty s.defaultVal = true)

/-- A flag and a `LOG_LEVEL` beside it name the same level, and so do a `LOG_LEVEL` of the
`.env` file that an empty one in the shell hides, and what comes behind. -/
def LogNotHidden : Prop :=
  (isEmpty args.logLevel = false →
    isEmpty ((shell logLevelName).or (dotenv fs shell logLevelName)) = false →
    levelOf (((shell logLevelName).or (dotenv fs shell logLevelName)).getD []) =
      levelOf (args.logLevel.getD [])) ∧
  (isEmpty args.logLevel = true → shell logLevelName = some [] →
    isEmpty (dotenv fs shell logLevelName) = false →
    levelOf ((dotenv fs shell logLevelName).getD []) =
      levelOf ((inConf fs shell args "logging".toList "level".toList).getD []))

end Sources

theorem setenv_apply (env : Env) (key value name : Str) :
    setenv env key value name = (env name).or (if name = key then some value else none) := by
  unfold setenv
  by_cases hname : name = key
  · subst hname
    cases henv : env name with
    | none => simp
    | some old => simp [henv]
  · rw [if_neg hname, Option.or_none]
    split
    · rfl
    · exact Function.update_of_ne hname ..

theorem envLoad_apply (env : Env) (file : Option Str) (name : Str) :
    (envLoad env file).2 name = (env name).or ((assignments file).lookup name) := by
  cases file with
  | none => exact (Option.or_none).symm
  | some text =>
    have hfold (n : Nat) (env : Env) (ls : List Str) : (ls.foldl envTurn (n, env)).2 name =
        (env name).or ((ls.filterMap envLine).lookup name) := by
      induction ls generalizing n env with
      | nil => exact (Option.or_none).symm
      | cons line ls ih =>
        rw [List.foldl_cons, envTurn]
        cases hline : envLine line with
        | none => rw [List.filterMap_cons_none hline, ih]
        | some p =>
          obtain ⟨key, val⟩ := p
          rw [List.filterMap_cons_some hline, ih, setenv_apply, Option.or_assoc, List.lookup_cons]
          by_cases hname : name = key
          · subst hname
            simp
          · simp [hname, beq_false_of_ne hname]
    exact hfold 0 env _

theorem configGet_or (cfg : Config) (sec key : Str) (defaultVal : Option Str) :
    configGet cfg sec key defaultVal = (configGet cfg sec key none).or defaultVal := by
  unfold configGet
  split <;> rfl

theorem isEmpty_nil : isEmpty (some []) = true := rfl

theorem isEmpty_iff (s : Option Str) : isEmpty s = true ↔ s = none ∨ s = some [] := by
  rcases s with _ | (_ | ⟨c, cs⟩) <;> simp [isEmpty]

theorem isEmpty_false {s : Option Str} (h : isEmpty s = false) : ∃ c cs, s = some (c :: cs) := by
  rcases s with _ | (_ | ⟨c, cs⟩)
  · cases h
  · cases h
  · exact ⟨c, cs, rfl⟩

theorem firstSupplied_empty {s : Option Str} (h : isEmpty s = true) (rest : List (Option Str)) :
    firstSupplied (s :: rest) = firstSupplied rest := by
  rw [firstSupplied, List.find?_cons_of_neg (by simp [h])]
  rfl

theorem firstSupplied_cons {s : Option Str} (h : isEmpty s = false) (rest : List (Option Str)) :
    firstSupplied (s :: rest) = s := by
  rw [firstSupplied, List.find?_cons_of_pos (by simp [h])]
  rfl

theorem firstSupplied_nil : firstSupplied [] = none := rfl

/-- The lookup of `env_or_cfg` in terms of the sources. -/
def looked (var conf defaultVal : Option Str) : Option Str :=
  if isEmpty var then conf.or defaultVal else var

theorem firstSupplied_last (s : Option Str) :
    firstSupplied [s] = if isEmpty s then none else s := by
  cases h : isEmpty s with
  | true => rw [firstSupplied_empty h, if_pos rfl, firstSupplied_nil]
  | false => rw [firstSupplied_cons h, if_neg Bool.false_ne_true]

/-- Behind the environment, an empty entry of the file comes before the default. -/
theorem conf_iff (conf defaultVal : Option Str) :
    (∀ v, firstSupplied [conf, defaultVal] = some v → conf.or defaultVal = some v) ↔
      (conf = some [] → isEmpty defaultVal = true) := by
  cases hconf : isEmpty conf with
  | false =>
    obtain ⟨c, cs, rfl⟩ := isEmpty_false hconf
    rw [firstSupplied_cons hconf]
    exact iff_of_true (fun v h => h) (fun h => by cases h)
  | true =>
    rw [firstSupplied_empty hconf, firstSupplied_last]
    rcases (isEmpty_iff conf).mp hconf with rfl | rfl
    · refine iff_of_true ?_ (fun h => by cases h)
      intro v h
      split at h
      · cases h
      · exact h
    · cases hdef : isEmpty defaultVal with
      | true => simp
      | false =>
        obtain ⟨c, cs, rfl⟩ := isEmpty_false hdef
        simp

theorem looked_iff (shell dot conf defaultVal : Option Str) :
    (∀ v, firstSupplied [shell, dot, conf, defaultVal] = some v →
      looked (shell.or dot) conf defaultVal = some v) ↔
    (shell = some [] → isEmpty dot = false → conf.or defaultVal = dot) ∧
      (isEmpty shell = true → isEmpty dot = true → conf = some [] → isEmpty defaultVal = true) := by
  cases hshell : isEmpty shell with
  | false =>
    obtain ⟨c, cs, rfl⟩ := isEmpty_false hshell
    rw [firstSupplied_cons hshell]
    refine iff_of_true (fun v h => h) ⟨?_, ?_⟩
    · intro h
      cases h
    · intro h
      cases h
  | true =>
    rw [firstSupplied_empty hshell]
    cases hdot : isEmpty dot with
    | false =>
      rw [firstSupplied_cons hdot]
      obtain ⟨c, cs, rfl⟩ := isEmpty_false hdot
      rcases (isEmpty_iff shell).mp hshell with rfl | rfl
      · refine iff_of_true (fun v h => h) ⟨?_, ?_⟩
        · intro h
          cases h
        · intro _ h
          cases h
      · have hlooked : looked ((some []).or (some (c :: cs))) conf defaultVal = conf.or defaultVal := rfl
        rw [hlooked]
        simp
    | true =>
      have hlooked : looked (shell.or dot) conf defaultVal = conf.or defaultVal := by
        rcases (isEmpty_iff shell).mp hshell with rfl | rfl
        · exact if_pos hdot
        · rfl
      rw [firstSupplied_empty hdot, hlooked, conf_iff]
      simp

theorem envOrCfg_eq (env : Env) (cfg : Config) (s : Setting) :
    envOrCfg env cfg s = looked (env s.env) (configGet cfg s.sec s.key none) s.defaultVal := by
  unfold envOrCfg looked
  rw [configGet_or]
  rcases env s.env with _ | (_ | ⟨c, cs⟩) <;> rfl

/-- The chain of `resolve_log_level` from some source on. -/
def levelFrom (sources : List (Option Str)) : LogLevel := levelOf ((firstSupplied sources).getD [])

theorem levelFrom_empty {s : Option Str} (h : isEmpty s = true) (rest : List (Option Str)) :
    levelFrom (s :: rest) = levelFrom rest := by
  rw [levelFrom, firstSupplied_empty h]
  rfl

theorem levelFrom_cons {s : Option Str} (h : isEmpty s = false) (rest : List (Option Str)) :
    levelFrom (s :: rest) = levelOf (s.getD []) := by
  rw [levelFrom, firstSupplied_cons h]

theorem levelFrom_last (conf : Option Str) : levelFrom [conf] = levelOf (conf.getD []) := by
  cases h : isEmpty conf with
  | false => exact levelFrom_cons h []
  | true =>
    rw [levelFrom_empty h]
    rcases (isEmpty_iff conf).mp h with rfl | rfl <;> rfl

theorem levelOf_warn : levelOf "warn".toList = .warn := by decide

theorem levelOf_nil : levelOf [] = .warn := by decide

/-- Without a level the default is that of an empty one. -/
theorem level_default (s : Option Str) :
    (if isEmpty s then LogLevel.warn else levelOf (s.getD [])) = levelOf (s.getD []) := by
  rcases s with _ | (_ | ⟨c, cs⟩)
  · exact levelOf_nil.symm
  · exact levelOf_nil.symm
  · rfl

theorem resolveLogLevel_eq (env : Env) (flag : Option Str) (cfg : Config) :
    resolveLogLevel env flag (some cfg) =
      levelFrom [env logLevelName, flag, configGet cfg "logging".toList "level".toList none] := by
  have hname : env "LOG_LEVEL".toList = env logLevelName := rfl
  unfold resolveLogLevel
  dsimp only
  rw [hname, level_default]
  generalize configGet cfg "logging".toList "level".toList none = conf
  cases hvar : isEmpty (env logLevelName) with
  | false =>
    rw [levelFrom_cons hvar, if_neg Bool.false_ne_true, hvar, if_neg Bool.false_ne_true]
  | true =>
    rw [levelFrom_empty hvar, if_pos rfl]
    cases hflag : isEmpty flag with
    | false => rw [levelFrom_cons hflag, if_neg Bool.false_ne_true]
    | true => rw [levelFrom_empty hflag, levelFrom_last, if_pos rfl]

/-- The level that the sources name in the documented order. -/
theorem level_sources (sources : List (Option Str)) (level : LogLevel) :
    (∀ v, firstSupplied (sources ++ [some "warn".toList]) = some v → level = levelOf v) ↔
      level = levelFrom sources := by
  induction sources with
  | nil =>
    have hwarn : firstSupplied [some "warn".toList] = some "warn".toList := firstSupplied_cons rfl []
    rw [List.nil_append, hwarn]
    have hnone : levelFrom [] = .warn := levelOf_nil
    rw [hnone, ← levelOf_warn]
    constructor
    · exact fun h => h _ rfl
    · intro h v hv
      rw [h, ← Option.some.inj hv]
  | cons s rest ih =>
    rw [List.cons_append]
    cases h : isEmpty s with
    | true => rw [firstSupplied_empty h, levelFrom_empty h, ih]
    | false =>
      obtain ⟨c, cs, rfl⟩ := isEmpty_false h
      rw [firstSupplied_cons h, levelFrom_cons h]
      constructor
      · exact fun hall => hall _ rfl
      · intro heq v hv
        rw [heq, ← Option.some.inj hv]
        rfl

theorem level_iff (flag shell dot conf : Option Str) :
    levelFrom [shell.or dot, flag, conf] = levelFrom [flag, shell, dot, conf] ↔
      (isEmpty flag = false → isEmpty (shell.or dot) = false →
        levelOf ((shell.or dot).getD []) = levelOf (flag.getD [])) ∧
      (isEmpty flag = true → shell = some [] → isEmpty dot = false →
        levelOf (dot.getD []) = levelOf (conf.getD [])) := by
  cases hflag : isEmpty flag with
  | false =>
    rw [levelFrom_cons hflag]
    cases hvar : isEmpty (shell.or dot) with
    | false =>
      rw [levelFrom_cons hvar]
      simp
    | true =>
      rw [levelFrom_empty hvar, levelFrom_cons hflag]
      simp
  | true =>
    rw [levelFrom_empty hflag]
    cases hshell : isEmpty shell with
    | false =>
      obtain ⟨c, cs, rfl⟩ := isEmpty_false hshell
      rw [Option.some_or, levelFrom_cons hshell, levelFrom_cons hshell]
      simp
    | true =>
      rw [levelFrom_empty hshell]
      rcases (isEmpty_iff shell).mp hshell with rfl | rfl
      · rw [Option.none_or]
        cases hdot : isEmpty dot with
        | false => simp [levelFrom_cons hdot]
        | true => simp [levelFrom_empty hdot, levelFrom_empty hflag]
      · rw [Option.some_or, levelFrom_empty isEmpty_nil, levelFrom_empty hflag, levelFrom_last]
        cases hdot : isEmpty dot with
        | false =>
          rw [levelFrom_cons hdot, eq_comm]
          simp
        | true =>
          rw [levelFrom_empty hdot, levelFrom_last]
          simp

section Boot
variable (fs : Fs) (shell : Env) (args : CliArgs)

theorem bootEnv_apply (name : Str) : bootEnv fs shell name = (shell name).or (dotenv fs shell name) :=
  envLoad_apply shell _ name

/-- A setting is in order exactly if no value for it is hidden. -/
theorem setting_iff (s : Setting) {env : Env} (henv : env s.env = bootEnv fs shell s.env) :
    (∀ v, firstSupplied (sourcesOf fs shell args s) = some v →
      envOrCfg env (bootCfg fs shell args) s = some v) ↔ NotHidden fs shell args s := by
  rw [envOrCfg_eq, henv, bootEnv_apply]
  exact looked_iff ..

/-- The socket that `boot` exports is no variable of another setting. -/
theorem exported_apply {name : Str} (h : name ≠ "TMUX_SOCKET".toList) (env : Env) (sock : Str) :
    setenv env "TMUX_SOCKET".toList sock name = env name := by
  rw [setenv_apply, if_neg h, Option.or_none]

theorem resolved_spec : ∀ p ∈ resolved (boot fs shell args), ∃ env,
    env p.1.env = bootEnv fs shell p.1.env ∧ p.2 = envOrCfg env (bootCfg fs shell args) p.1 := by
  intro p hp
  obtain ⟨exported, hexported⟩ : ∃ env, env = setenv (bootEnv fs shell) "TMUX_SOCKET".toList
      ((envOrCfg (bootEnv fs shell) (bootCfg fs shell args) tmuxSocketSetting).getD []) := ⟨_, rfl⟩
  have hsplit : resolved (boot fs shell args) =
      (settings.take 2).map (fun s => (s, envOrCfg (bootEnv fs shell) (bootCfg fs shell args) s)) ++
        (settings.drop 2).map (fun s => (s, envOrCfg exported (bootCfg fs shell args) s)) := by
    rw [hexported]
    rfl
  have hothers : ∀ s ∈ settings.drop 2, s.env ≠ "TMUX_SOCKET".toList := by decide
  rw [hsplit] at hp
  rcases List.mem_append.mp hp with hp | hp
  · obtain ⟨s, -, rfl⟩ := List.mem_map.mp hp
    exact ⟨bootEnv fs shell, rfl, rfl⟩
  · obtain ⟨s, hs, rfl⟩ := List.mem_map.mp hp
    refine ⟨exported, ?_, rfl⟩
    rw [hexported]
    exact exported_apply (hothers s hs) _ _

/-- The documented order holds at a boot exactly if nothing is hidden. -/
theorem boot_in_order_iff : InOrder fs shell args ↔
    (∀ s ∈ settings, NotHidden fs shell args s) ∧ LogNotHidden fs shell args := by
  refine and_congr ?_ ?_
  · have hmap : settings = (resolved (boot fs shell args)).map Prod.fst := rfl
    rw [hmap, List.forall_mem_map]
    refine forall₂_congr ?_
    intro p hp
    obtain ⟨env, henv, hvalue⟩ := resolved_spec fs shell args p hp
    rw [hvalue]
    exact setting_iff fs shell args p.1 henv
  · have hlevel : (boot fs shell args).logLevel =
        levelFrom [(shell logLevelName).or (dotenv fs shell logLevelName), args.logLevel,
          inConf fs shell args "logging".toList "level".toList] := by
      rw [← bootEnv_apply]
      exact resolveLogLevel_eq ..
    rw [hlevel]
    exact (level_sources _ _).trans (level_iff ..)

end Boot

def oneFile (path text : Str) : Fs := fun p => if p = path then some text else none

def shellWith (name value : Str) : Env := fun n => if n = name then some value else none

def noArgs : CliArgs := ⟨none, none, none⟩

theorem model_mem (b : Booted) : (modelSetting, b.model) ∈ resolved b := by
  have hplace : (resolved b)[6]? = some (modelSetting, b.model) := rfl
  exact List.mem_of_getElem? hplace

/-- `LOG_LEVEL` is taken before the flag, a model of the `.env` file is hidden by an empty
variable, and an empty workspace of `dobby.conf` is taken before the default. -/
theorem later_source_taken :
    ¬ InOrder (fun _ => none) (shellWith logLevelName "error".toList)
      { noArgs with logLevel := some "debug".toList } ∧
    ¬ InOrder (oneFile ".env".toList "MODEL=x\n".toList) (shellWith "MODEL".toList []) noArgs ∧
    ¬ InOrder (oneFile "dobby.conf".toList "[paths]\nworkspace =\n".toList) (fun _ => none) noArgs := by
  refine ⟨?_, ?_, ?_⟩
  · intro h
    have hlevel := h.2 "debug".toList (by decide +kernel)
    revert hlevel
    decide +kernel
  · intro h
    have hmodel := h.1 (modelSetting, _) (model_mem _) "x".toList (by decide +kernel)
    revert hmodel
    decide +kernel
  · intro h
    have hworkspace := h.1 (workspaceSetting, _) List.mem_cons_self "~/.dobby".toList (by decide +kernel)
    revert hworkspace
    decide +kernel

end Dobby.Conf
