import Dobby.Model.Cli
import Dobby.Proofs.AgentHistory
import Dobby.Proofs.SessionIsolation

namespace Dobby.Cli
open CString AgentLoop MdMemory Session Runs

def skillsPart (cfg : Config) : List Str := ((given cfg.skillsPrompt).map cstr).toList

def identityPart (cfg : Config) : List Str :=
  (((given cfg.address).map emailIdentity).map cstr).toList

/-- What the memory holds when `boot` reads it. -/
def bootText (cfg : Config) : Str := readMemoryFile (bootMemory cfg).2 (bootMemory cfg).1

/-- The parts of a prompt with the memory and what follows the skills. -/
def promptParts (cfg : Config) (memory : Str) (rest : List Str) : List Str :=
  (bootFiles cfg).systemParts ++ (contextHeader ++ memory) :: (skillsPart cfg ++ rest)

def composed (parts : List Str) : Str := parts.flatMap (fun part => part ++ ['\n', '\n'])

theorem addSystemPart_parts {a : Agent} (h : a.systemParts.length < maxSystemParts) (part : Str) :
    (agentAddSystemPart a part).systemParts = a.systemParts ++ [cstr part] := by
  rw [agentAddSystemPart, if_neg (Nat.not_le_of_lt h)]

theorem addPart_parts {a : Agent} (h : a.systemParts.length < maxSystemParts) (part : Option Str) :
    (addPart a part).systemParts = a.systemParts ++ (part.map cstr).toList := by
  cases part with
  | none => exact (List.append_nil _).symm
  | some part => exact addSystemPart_parts h part

/-- What adding parts leaves alone. -/
structure SameBody (a b : Agent) : Prop where
  messages : b.messages = a.messages
  iterations : b.maxIterations = a.maxIterations
  fmt : b.fmt = a.fmt

theorem addSystemPart_body (a : Agent) (part : Str) : SameBody a (agentAddSystemPart a part) := by
  rw [agentAddSystemPart]
  split <;> exact ⟨rfl, rfl, rfl⟩

theorem addPart_body (a : Agent) (part : Option Str) : SameBody a (addPart a part) := by
  cases part with
  | none => exact ⟨rfl, rfl, rfl⟩
  | some part => exact addSystemPart_body a part

theorem SameBody.trans {a b c : Agent} (h : SameBody a b) (h' : SameBody b c) : SameBody a c :=
  ⟨h'.messages.trans h.messages, h'.iterations.trans h.iterations, h'.fmt.trans h.fmt⟩

theorem addParts_body (docs : List (Option Str)) (a : Agent) : SameBody a (docs.foldl addPart a) := by
  induction docs generalizing a with
  | nil => exact ⟨rfl, rfl, rfl⟩
  | cons part docs ih => exact (addPart_body a part).trans (ih _)

theorem addParts_parts {docs : List (Option Str)} {a : Agent}
    (h : a.systemParts.length + docs.length ≤ maxSystemParts) :
    (docs.foldl addPart a).systemParts =
      a.systemParts ++ docs.flatMap (fun part => (part.map cstr).toList) := by
  induction docs generalizing a with
  | nil => exact (List.append_nil _).symm
  | cons part docs ih =>
    rw [List.length_cons] at h
    have hadded := addPart_parts (a := a) (by omega) part
    have hlength : ((part.map cstr).toList).length ≤ 1 := by cases part <;> simp
    have hroom : (addPart a part).systemParts.length + docs.length ≤ maxSystemParts := by
      rw [hadded, List.length_append]
      omega
    rw [List.foldl_cons, ih hroom, hadded, List.append_assoc, List.flatMap_cons]

theorem bootFiles_body (cfg : Config) :
    (bootFiles cfg).messages = [] ∧ (bootFiles cfg).maxIterations = cfg.maxIterations := by
  have h := addParts_body (bootDocs cfg)
    { agentCreate cfg.fmt with maxIterations := cfg.maxIterations, maxMessages := cfg.maxMessages }
  exact ⟨h.messages, h.iterations⟩

theorem bootFiles_parts (cfg : Config) : (bootFiles cfg).systemParts =
    (bootDocs cfg).flatMap (fun part => (part.map cstr).toList) := by
  have hroom : 0 + (bootDocs cfg).length ≤ maxSystemParts := by
    rw [bootDocs, List.length_map]
    decide
  exact (addParts_parts (a := { agentCreate cfg.fmt with
    maxIterations := cfg.maxIterations, maxMessages := cfg.maxMessages }) hroom).trans
    (List.nil_append _)

theorem length_parts (docs : List (Option Str)) :
    (docs.flatMap (fun part => (part.map cstr).toList)).length ≤ docs.length := by
  induction docs with
  | nil => exact Nat.le_refl 0
  | cons part docs ih =>
    rw [List.flatMap_cons, List.length_append, List.length_cons]
    have hone : ((part.map cstr).toList).length ≤ 1 := by cases part <;> simp
    omega

theorem bootFiles_length (cfg : Config) : (bootFiles cfg).systemParts.length ≤ 3 := by
  rw [bootFiles_parts]
  exact (length_parts _).trans (by simp [bootDocs])

theorem maybe_plain (part : Option Str) : ∀ p ∈ (part.map cstr).toList, cstr p = p := by
  intro p hp
  cases part with
  | none => cases hp
  | some part =>
    obtain rfl : p = cstr part := List.mem_singleton.mp hp
    exact cstr_eq_self (not_mem_cstr part)

theorem bootText_plain (cfg : Config) : '\x00' ∉ bootText cfg := by
  unfold bootText readMemoryFile
  split
  · exact List.not_mem_nil
  · split
    · exact List.not_mem_nil
    · exact not_mem_cstr _

theorem contextHeader_plain : '\x00' ∉ contextHeader := by
  decide +kernel

/-- The parts of the template when the session of the terminal is made. -/
theorem bootAgent_parts (cfg : Config) :
    (bootAgent cfg).systemParts = promptParts cfg (bootText cfg) [] := by
  have hfiles := bootFiles_length cfg
  have hlimit : maxSystemParts = 16 := rfl
  have hmemory := addSystemPart_parts (a := bootFiles cfg) (by omega)
    (memoryGetContext (bootMemory cfg).2 (bootMemory cfg).1)
  have hplain : cstr (memoryGetContext (bootMemory cfg).2 (bootMemory cfg).1) =
      contextHeader ++ bootText cfg := by
    change cstr (contextHeader ++ bootText cfg) = _
    rw [cstr_append contextHeader_plain, cstr_eq_self (bootText_plain cfg)]
  rw [bootAgent, addPart_parts, hmemory, hplain, List.append_assoc, promptParts, List.append_nil]
  · rfl
  · rw [hmemory, List.length_append, List.length_singleton]
    omega

theorem promptParts_length (cfg : Config) (memory : Str) :
    (promptParts cfg memory []).length ≤ 5 := by
  have hfiles := bootFiles_length cfg
  have hskills : (skillsPart cfg).length ≤ 1 := by
    unfold skillsPart
    cases given cfg.skillsPrompt <;> simp
  rw [promptParts, List.length_append, List.length_cons, List.append_nil]
  omega

theorem promptParts_plain (cfg : Config) :
    (promptParts cfg (bootText cfg) []).map cstr = promptParts cfg (bootText cfg) [] := by
  refine (List.map_congr_left (g := id) fun part hpart => ?_).trans (List.map_id _)
  rw [promptParts, bootFiles_parts, List.append_nil, List.mem_append, List.mem_cons] at hpart
  rcases hpart with hfile | hmemory | hskills
  · obtain ⟨doc, -, hdoc⟩ := List.mem_flatMap.mp hfile
    exact maybe_plain doc part hdoc
  · rw [hmemory, cstr_append contextHeader_plain, cstr_eq_self (bootText_plain cfg), id]
  · exact maybe_plain _ part hskills

theorem bootAgent_body (cfg : Config) :
    (bootAgent cfg).messages = [] ∧ (bootAgent cfg).maxIterations = cfg.maxIterations := by
  have h := (addSystemPart_body (bootFiles cfg)
    (memoryGetContext (bootMemory cfg).2 (bootMemory cfg).1)).trans
    (addPart_body _ (given cfg.skillsPrompt))
  exact ⟨h.messages.trans (bootFiles_body cfg).1, h.iterations.trans (bootFiles_body cfg).2⟩

/-- The session of the terminal gets the parts that the template has at that time. -/
theorem factory_clone (cfg : Config) :
    ∃ agent, agentFactory (bootAgent cfg) = (some agent, bootAgent cfg) ∧
    agent.systemParts = promptParts cfg (bootText cfg) [] ∧ agent.messages = [] ∧
    agent.maxIterations = cfg.maxIterations := by
  let created : Agent := { agentCreate (bootAgent cfg).fmt with
    maxIterations := (bootAgent cfg).maxIterations, maxMessages := (bootAgent cfg).maxMessages }
  have hfold : ∀ parts : List Str, parts.foldl agentAddSystemPart created =
      (parts.map some).foldl addPart created := by
    intro parts
    rw [List.foldl_map]
    rfl
  have hbody := addParts_body ((bootAgent cfg).systemParts.map some) created
  refine ⟨_, rfl, ?_, ?_, ?_⟩
  · have hfive := promptParts_length cfg (bootText cfg)
    have hroom : created.systemParts.length + ((promptParts cfg (bootText cfg) []).map some).length ≤
        maxSystemParts := by
      rw [List.length_map]
      exact (Nat.zero_add _).le.trans (hfive.trans (by decide))
    have hmaybe : ∀ parts : List Str, (parts.map some).flatMap (fun part => (part.map cstr).toList) =
        parts.map cstr := by
      intro parts
      rw [List.flatMap_map]
      exact List.map_eq_flatMap.symm
    rw [hfold, bootAgent_parts, addParts_parts hroom, hmaybe, promptParts_plain]
    rfl
  · rw [hfold]
    exact hbody.messages
  · rw [hfold]
    exact hbody.iterations.trans (bootAgent_body cfg).2

/-- A history with this prompt in its system message. -/
def Headed (prompt : Str) (messages : List Message) : Prop :=
  ∃ m rest, messages = m :: rest ∧ m.role = "system".toList ∧ m.content = prompt

/-- What a step of a chat leaves of a history that has begun, and of the marks of its
messages. -/
structure Kept (a : Agent) (old : List Bool) (b : Agent) (old' : List Bool) : Prop where
  parts : b.systemParts = a.systemParts
  iterations : b.maxIterations = a.maxIterations
  marked : old.length = a.messages.length → old'.length = b.messages.length
  begun : a.messages ≠ [] → b.messages ≠ []
  head : ∀ prompt, Headed prompt a.messages → Headed prompt b.messages
  oldest : old ≠ [] → old'.head? = old.head?
  young : true ∈ old' → true ∈ old

theorem Kept.refl (a : Agent) (old : List Bool) : Kept a old a old :=
  ⟨rfl, rfl, id, id, fun _ => id, fun _ => rfl, id⟩

theorem Kept.trans (h : Kept a old b old') (h' : Kept b old' c old'') (hne : old ≠ [] → old' ≠ []) :
    Kept a old c old'' where
  parts := h'.parts.trans h.parts
  iterations := h'.iterations.trans h.iterations
  marked := h'.marked ∘ h.marked
  begun := h'.begun ∘ h.begun
  head prompt := h'.head prompt ∘ h.head prompt
  oldest hold := (h'.oldest (hne hold)).trans (h.oldest hold)
  young := h.young ∘ h'.young

theorem compact_parts (a : Agent) : (agentCompactHistory a).systemParts = a.systemParts := by
  rw [agentCompactHistory]
  split <;> rfl

theorem add_parts (a : Agent) (role : Str) (content toolCallId name : Option Str)
    (toolCalls : Option Json) :
    (agentAddMessage a role content toolCallId name toolCalls).systemParts = a.systemParts := by
  simp only [agentAddMessage]
  split
  · exact compact_parts a
  · rfl

theorem add_iterations (a : Agent) (role : Str) (content toolCallId name : Option Str)
    (toolCalls : Option Json) :
    (agentAddMessage a role content toolCallId name toolCalls).maxIterations = a.maxIterations := by
  simp only [agentAddMessage]
  split
  · exact (compact_frame a).2.1
  · rfl

/-- Every message is added the same way, with or without room. -/
theorem add_messages (a : Agent) (role : Str) (content toolCallId name : Option Str)
    (toolCalls : Option Json) :
    ∃ m, (agentAddMessage a role content toolCallId name toolCalls).messages =
      (if a.limit ≤ a.messages.length then a.messages.take 1 ++ a.messages.drop a.cutEnd
        else a.messages) ++ [m] := by
  refine ⟨⟨role, content.getD [], toolCallId, name, toolCalls, true⟩, ?_⟩
  split
  · rename_i hfull
    rw [add_full hfull, List.append_assoc]
  · rename_i hroom
    exact add_room (Nat.lt_of_not_le hroom) ..

theorem kept_add (a : Agent) (old : List Bool) (role : Str) (content toolCallId name : Option Str)
    (toolCalls : Option Json) :
    Kept a old (agentAddMessage a role content toolCallId name toolCalls) (addOld a old) := by
  obtain ⟨m, hm⟩ := add_messages a role content toolCallId name toolCalls
  refine ⟨add_parts .., add_iterations .., fun hlen => ?_, fun _ => ?_, ?_, ?_, ?_⟩
  · rw [hm, addOld]
    split <;> simp [hlen]
  · rw [hm]
    simp
  · rintro prompt ⟨system, rest, hcons, hrole, hcontent⟩
    rw [hm, hcons]
    split
    · exact ⟨system, _, rfl, hrole, hcontent⟩
    · exact ⟨system, _, rfl, hrole, hcontent⟩
  · intro hne
    obtain ⟨b, bs, rfl⟩ := List.exists_cons_of_ne_nil hne
    rw [addOld]
    split <;> rfl
  · intro hmem
    rw [addOld, List.mem_append, List.mem_singleton] at hmem
    rcases hmem with hmem | hmem
    · split at hmem
      · rcases List.mem_append.mp hmem with hmem | hmem
        · exact List.mem_of_mem_take hmem
        · exact List.mem_of_mem_drop hmem
      · exact hmem
    · cases hmem

theorem kept_rollBack {pre : Nat} (hpre : 0 < pre) (a : Agent) (old : List Bool) :
    Kept a old { a with messages := rollBack pre a.messages } (old.take pre) := by
  obtain ⟨n, rfl⟩ : ∃ n, pre = n + 1 := ⟨pre - 1, by omega⟩
  have hmessages := rollBack_eq_take (n + 1) a.messages
  refine ⟨rfl, rfl, fun hlen => ?_, fun hne => ?_, ?_, fun hne => ?_, List.mem_of_mem_take⟩
  · simp [hmessages, hlen]
  · change rollBack (n + 1) a.messages ≠ []
    rw [hmessages]
    simpa using hne
  · rintro prompt ⟨system, rest, hcons, hspec⟩
    refine ⟨system, rest.take n, ?_, hspec⟩
    change rollBack (n + 1) a.messages = _
    rw [hmessages, hcons]
    rfl
  · obtain ⟨b, bs, rfl⟩ := List.exists_cons_of_ne_nil hne
    rfl

theorem kept_ready {a : Agent} (hne : a.messages ≠ []) (old : List Bool) :
    Kept a old a.ready old := by
  have hmessages := (ready_messages a).1 hne
  have hready : a.ready = { a with messages := a.messages.map Message.settle } := by
    simp [Agent.ready, hne]
  refine ⟨by rw [hready], by rw [hready], fun hlen => ?_, fun _ => ?_, ?_, fun _ => rfl, id⟩
  · rw [hmessages, List.length_map]
    exact hlen
  · rw [hmessages]
    simpa using hne
  · rintro prompt ⟨system, rest, hcons, hspec⟩
    refine ⟨system.settle, rest.map Message.settle, ?_, hspec⟩
    rw [hmessages, hcons]
    rfl

/-- An empty history gets the prompt of its own agent. -/
theorem ready_headed {a : Agent} (h : a.messages = []) :
    Headed (composed a.systemParts) a.ready.messages ∧ a.ready.messages.length = 1 ∧
      a.ready.systemParts = a.systemParts ∧ a.ready.maxIterations = a.maxIterations := by
  have hroom : ¬ a.limit ≤ 0 := Nat.not_le_of_lt (limit_pos a)
  have hready : a.ready = { a with
      messages := [⟨"system".toList, buildSystemPrompt a, none, none, none, false⟩] } := by
    simp [Agent.ready, agentAddMessage, h, hroom, Message.settle]
  rw [hready]
  exact ⟨⟨_, [], rfl, rfl, rfl⟩, rfl, rfl, rfl⟩

theorem addOld_nil (a : Agent) : addOld a [] = [false] := by
  simp [addOld]

/-- A turn that has begun has a message to go back to, and it counts its iterations. -/
def Floored : AgentLoop.Pc → Prop
  | .idle => True
  | .asking pre iter | .running pre iter _ => 0 < pre ∧ 0 ≤ iter

theorem chat_kept {a : Agent} (hs : AgentLoop.Step cj registry ⟨a, q⟩ e c) (hfloor : Floored q)
    (hne : a.messages ≠ []) (old : List Bool) :
    Kept a old c.agent (oldAfter ⟨a, q⟩ e old) ∧ Floored c.pc := by
  cases hs with
  | refused pc => exact ⟨.refl a old, hfloor⟩
  | began pc nonempty =>
    have hready := kept_ready hne old
    have hold : ∀ text, oldAfter ⟨a, q⟩ (.began text) old = addOld a.ready old := by
      simp [oldAfter, hne]
    rw [hold]
    have hpos := List.length_pos_of_ne_nil (hready.begun hne)
    exact ⟨hready.trans (kept_add ..) id, hpos, Int.le_refl 0⟩
  | failed pc more | exhausted pc =>
    obtain rfl : q = _ := pc
    exact ⟨kept_rollBack hfloor.1 a old, trivial⟩
  | called pc more | ran pc | unknown pc =>
    obtain rfl : q = _ := pc
    exact ⟨kept_add .., hfloor⟩
  | answered pc more => exact ⟨kept_add .., trivial⟩
  | looped pc =>
    obtain rfl : q = _ := pc
    exact ⟨.refl a old, hfloor.1, Int.le_add_one hfloor.2⟩

/-- The first turn of a session. -/
theorem chat_begun {a : Agent} (hs : AgentLoop.Step cj registry ⟨a, .idle⟩ (.began text) c)
    (h : a.messages = []) :
    Headed (composed a.systemParts) c.agent.messages ∧ c.agent.systemParts = a.systemParts ∧
      c.agent.maxIterations = a.maxIterations ∧
      (oldAfter ⟨a, .idle⟩ (.began text) []).length = c.agent.messages.length ∧
      true ∉ oldAfter ⟨a, .idle⟩ (.began text) [] ∧ Floored c.pc := by
  obtain ⟨hhead, hone, hparts, hiterations⟩ := ready_headed h
  have hold : oldAfter ⟨a, .idle⟩ (.began text) [] = addOld a.ready [false] := by
    simp [oldAfter, h, addOld_nil]
  cases hs with
  | began pc nonempty =>
    have hkept := kept_add a.ready [false] "user".toList (some text) none none none
    rw [hold]
    refine ⟨hkept.head _ hhead, hkept.parts.trans hparts, hkept.iterations.trans hiterations,
      hkept.marked hone.symm, fun hmem => ?_, ?_⟩
    · have := hkept.young hmem
      simp at this
    · exact ⟨hone.symm ▸ Nat.zero_lt_one, Int.le_refl 0⟩

/-- The input of a turn. -/
def Event.Chats : Event → Prop
  | .typed line => strTrim line ≠ [] ∧ (strTrim line).head? ≠ some '/'
  | _ => False

def Event.Renews : Event → Prop
  | .typed line => strTrim line = newCommand
  | _ => False

/-- Some `/new` comes after a turn. -/
def Renewed (log : List Event) : Prop := ∃ e f, [e, f].Sublist log ∧ e.Chats ∧ f.Renews

/-- The memory text that `refresh_memory` has read last, at first that of the boot. -/
def lastRead (cfg : Config) (log : List Event) : Str :=
  log.foldl (fun memory e => match e with | .refreshed text => text | _ => memory) (bootText cfg)

theorem renewed_snoc {log : List Event} {e : Event} :
    Renewed (log ++ [e]) ↔ Renewed log ∨ e.Renews ∧ ∃ t ∈ log, t.Chats := by
  constructor
  · rintro ⟨t, f, hsub, ht, hf⟩
    obtain ⟨l₁, l₂, heq, h₁, h₂⟩ := List.sublist_append_iff.mp hsub
    rcases List.sublist_singleton.mp h₂ with rfl | rfl
    · rw [List.append_nil] at heq
      exact Or.inl ⟨t, f, heq ▸ h₁, ht, hf⟩
    · have hpair : [t] ++ [f] = l₁ ++ [e] := heq
      obtain ⟨rfl, hlast⟩ := List.append_inj' hpair rfl
      obtain rfl := List.singleton_inj.mp hlast
      exact Or.inr ⟨hf, t, List.singleton_sublist.mp h₁, ht⟩
  · rintro (⟨t, f, hsub, hspec⟩ | ⟨he, t, hmem, ht⟩)
    · exact ⟨t, f, hsub.trans (List.sublist_append_left log [e]), hspec⟩
    · exact ⟨t, e, (List.singleton_sublist.mpr hmem).append_right [e], ht, he⟩

theorem not_renewed_nil : ¬ Renewed [] := by
  rintro ⟨e, f, hsub, -⟩
  cases hsub

theorem lastRead_snoc (cfg : Config) (log : List Event) (e : Event) :
    lastRead cfg (log ++ [e]) = match e with | .refreshed text => text | _ => lastRead cfg log := by
  rw [lastRead, List.foldl_append]
  rfl

/-- The worker is at the session of the terminal, with the text of a turn. -/
def At (i : Fin sessionMax) (log : List Event) : Pc → Prop
  | .posted text => text ≠ [] ∧ ∃ t ∈ log, t.Chats
  | .chatting j text q => j = i ∧ text ≠ [] ∧ (∃ t ∈ log, t.Chats) ∧ Floored q
  | _ => True

/-- No turn has come as far as the agent. -/
def Unused (log : List Event) : Pc → Prop
  | .prompt => ∀ t ∈ log, ¬ t.Chats
  | .posted _ | .chatting _ _ .idle => True
  | _ => False

/-- The template follows the memory, and the agent of the session keeps the prompt that
it was made with. -/
structure Live (cfg : Config) (i : Fin sessionMax) (log : List Event) (s : State)
    (agent : Agent) : Prop where
  slot : s.memorySlot = (bootFiles cfg).systemParts.length
  template : s.template.systemParts = promptParts cfg (lastRead cfg log) (identityPart cfg)
  blank : s.template.messages = []
  table : s.sessions.Valid
  held : s.sessions.Holds i (sessionKey cliChannel cliChat)
  owner : (s.sessions.slots i).agent = some agent
  parts : agent.systemParts = promptParts cfg (bootText cfg) []
  iterations : agent.maxIterations = cfg.maxIterations
  marked : s.old.length = agent.messages.length
  young : true ∈ s.old → Renewed log
  pc : At i log s.pc
  unused : agent.messages = [] → ¬ Renewed log ∧ Unused log s.pc
  begun : agent.messages ≠ [] → Headed (composed (promptParts cfg (bootText cfg) [])) agent.messages ∧
    (∃ t ∈ log, t.Chats) ∧ (Renewed log → s.old.head? = some true)

/-- Neither a turn nor `/new` nor a refresh. -/
structure Quiet (e : Event) : Prop where
  chats : ¬ e.Chats
  renews : ¬ e.Renews
  read : ∀ text, e ≠ .refreshed text

theorem Quiet.lastRead (h : Quiet e) (cfg : Config) (log : List Event) :
    lastRead cfg (log ++ [e]) = lastRead cfg log := by
  rw [lastRead_snoc]
  cases e with
  | refreshed text => exact absurd rfl (h.read text)
  | _ => rfl

theorem Quiet.renewed (h : Quiet e) {log : List Event} : Renewed (log ++ [e]) ↔ Renewed log := by
  rw [renewed_snoc]
  exact or_iff_left (fun hnew => h.renews hnew.1)

theorem chats_snoc {log : List Event} (h : ∃ t ∈ log, t.Chats) (e : Event) :
    ∃ t ∈ log ++ [e], t.Chats := by
  obtain ⟨t, hmem, ht⟩ := h
  exact ⟨t, List.mem_append_left _ hmem, ht⟩

theorem At.snoc {pc : Pc} (h : At i log pc) (e : Event) : At i (log ++ [e]) pc := by
  cases pc with
  | posted text => exact ⟨h.1, chats_snoc h.2 e⟩
  | chatting j text q => exact ⟨h.1, h.2.1, chats_snoc h.2.2.1 e, h.2.2.2⟩
  | prompt | releasing | answered => trivial

theorem Unused.snoc {pc : Pc} (h : Unused log pc) {e : Event} (he : ¬ e.Chats) :
    Unused (log ++ [e]) pc := by
  cases pc with
  | prompt =>
    intro t ht
    rcases List.mem_append.mp ht with ht | ht
    · exact h t ht
    · rw [List.mem_singleton.mp ht]
      exact he
  | chatting j text q => cases q <;> exact h
  | posted | releasing | answered => exact h

theorem Live.quiet {s : State} (h : Live cfg i log s agent) (hq : Quiet e) :
    Live cfg i (log ++ [e]) s agent where
  slot := h.slot
  template := by rw [hq.lastRead, h.template]
  blank := h.blank
  table := h.table
  held := h.held
  owner := h.owner
  parts := h.parts
  iterations := h.iterations
  marked := h.marked
  young := hq.renewed.mpr ∘ h.young
  pc := h.pc.snoc e
  unused hnil := ⟨fun hnew => (h.unused hnil).1 (hq.renewed.mp hnew), (h.unused hnil).2.snoc hq.chats⟩
  begun hne :=
    ⟨(h.begun hne).1, chats_snoc (h.begun hne).2.1 e,
      fun hnew => (h.begun hne).2.2 (hq.renewed.mp hnew)⟩

theorem slashHandle_none {line : Str} {a : Agent} (h : slashHandle line a = none) :
    line.head? ≠ some '/' := by
  intro hslash
  unfold slashHandle at h
  rw [if_neg (not_not_intro hslash)] at h
  split at h <;> cases h

/-- A command leaves the prompt of the template. -/
theorem slashHandle_some {line : Str} {a b : Agent} (h : slashHandle line a = some b) :
    line.head? = some '/' ∧ b.systemParts = a.systemParts ∧ (a.messages = [] → b.messages = []) := by
  unfold slashHandle at h
  split at h
  · cases h
  · rename_i hslash
    refine ⟨not_not.mp hslash, ?_⟩
    split at h
    · cases h
      exact ⟨rfl, fun _ => rfl⟩
    · cases h
      exact ⟨rfl, id⟩

theorem Live.command {s : State} (h : Live cfg i log s agent) (hpc : s.pc = .prompt)
    (hhandled : slashHandle (strTrim line) s.template = some next) :
    Live cfg i (log ++ [.typed line]) { s with
      template := next
      old := if strTrim line = newCommand then s.old.map (fun _ => true) else s.old } agent := by
  obtain ⟨hslash, hparts, hblank⟩ := slashHandle_some hhandled
  have hchats : ¬ (Event.typed line).Chats := fun hchats => hchats.2 hslash
  by_cases hnew : strTrim line = newCommand
  · have hrenewed : Renewed (log ++ [.typed line]) ↔ Renewed log ∨ ∃ t ∈ log, t.Chats := by
      rw [renewed_snoc]
      exact or_congr_right (and_iff_right hnew)
    rw [if_pos hnew]
    refine { h with
      template := ?_, blank := hblank h.blank, marked := ?_, young := ?_, pc := h.pc.snoc _,
      unused := ?_, begun := ?_ }
    · rw [lastRead_snoc, hparts, h.template]
    · rw [List.length_map, h.marked]
    · intro hmem
      obtain ⟨b, hb, -⟩ := List.mem_map.mp hmem
      have hne : agent.messages ≠ [] := by
        rw [← List.length_pos_iff, ← h.marked]
        exact List.length_pos_of_mem hb
      exact hrenewed.mpr (Or.inr (h.begun hne).2.1)
    · intro hnil
      obtain ⟨hno, hunused⟩ := h.unused hnil
      refine ⟨fun hr => ?_, hunused.snoc hchats⟩
      rw [hpc] at hunused
      rcases hrenewed.mp hr with hr | ⟨t, ht, hchat⟩
      · exact hno hr
      · exact hunused t ht hchat
    · intro hne
      obtain ⟨hhead, hchat, -⟩ := h.begun hne
      refine ⟨hhead, chats_snoc hchat _, fun _ => ?_⟩
      have hlen : 0 < s.old.length := by
        rw [h.marked]
        exact List.length_pos_of_ne_nil hne
      obtain ⟨b, bs, hcons⟩ := List.exists_cons_of_length_pos hlen
      rw [hcons]
      rfl
  · have hq : Quiet (.typed line) := ⟨hchats, hnew, fun _ => by simp⟩
    have hquiet := h.quiet hq
    rw [if_neg hnew]
    exact { hquiet with template := hparts.trans hquiet.template, blank := hblank h.blank }

theorem Live.turn {s : State} (h : Live cfg i log s agent) (htext : strTrim line ≠ [])
    (hplain : slashHandle (strTrim line) s.template = none) :
    Live cfg i (log ++ [.typed line]) { s with pc := .posted (strTrim line) } agent := by
  have hslash := slashHandle_none hplain
  have hchats : (Event.typed line).Chats := ⟨htext, hslash⟩
  have hmem : ∃ t ∈ log ++ [.typed line], t.Chats :=
    ⟨_, List.mem_append_right _ List.mem_cons_self, hchats⟩
  have hrenewed : Renewed (log ++ [.typed line]) ↔ Renewed log := by
    rw [renewed_snoc]
    refine or_iff_left (fun hnew => hslash ?_)
    rw [hnew.1]
    rfl
  refine { h with
    template := ?_, young := hrenewed.mpr ∘ h.young, pc := ⟨htext, hmem⟩, unused := ?_, begun := ?_ }
  · rw [lastRead_snoc, h.template]
  · exact fun hnil => ⟨fun hr => (h.unused hnil).1 (hrenewed.mp hr), trivial⟩
  · intro hne
    obtain ⟨hhead, -, hold⟩ := h.begun hne
    exact ⟨hhead, hmem, hold ∘ hrenewed.mp⟩

theorem quiet_looked : Quiet .looked := ⟨id, id, fun _ => by simp⟩

/-- The worker is given the session that the boot has made. -/
theorem Live.given {s : State} (h : Live cfg i log s agent) (tEvict tCreate : Int) :
    sessionGetOrCreate agentFactory s.sessions s.template cliChannel cliChat tEvict tCreate =
      (some i, s.sessions, s.template) := by
  rcases getOrCreate_cases agentFactory h.table s.template cliChannel cliChat tEvict tCreate with
    ⟨j, hj, hkey, hr⟩ | ⟨habsent, -⟩ | ⟨habsent, -⟩ | ⟨habsent, -⟩
  · rw [hr, h.table.distinct i j h.held.1 hj (h.held.2.trans hkey.symm)]
  all_goals exact absurd h.held.2 (habsent i h.held.1)

theorem Live.looked {s : State} (h : Live cfg i log s agent) (hpc : s.pc = .posted text) :
    Live cfg i (log ++ [.looked]) { s with pc := .chatting i text .idle } agent := by
  have hquiet := h.quiet quiet_looked
  have hat := h.pc
  rw [hpc] at hat
  refine { hquiet with pc := ⟨rfl, hat.1, chats_snoc hat.2 _, trivial⟩, unused := fun hnil => ?_ }
  exact ⟨(hquiet.unused hnil).1, trivial⟩

theorem quiet_released : Quiet .released := ⟨id, id, fun _ => by simp⟩

theorem Live.released {s : State} (h : Live cfg i log s agent) (hpc : s.pc = .releasing j)
    (now : Int) : Live cfg i (log ++ [.released])
      { s with sessions := sessionRelease s.sessions j now, pc := .answered } agent := by
  have hquiet := h.quiet quiet_released
  have hkept : (sessionRelease s.sessions j now).Holds i (sessionKey cliChannel cliChat) ∧
      ((sessionRelease s.sessions j now).slots i).agent = some agent := by
    by_cases hij : i = j
    · subst hij
      rw [Manager.Holds, sessionRelease_self]
      exact ⟨h.held, h.owner⟩
    · rw [Manager.Holds, sessionRelease_ne _ now hij]
      exact ⟨h.held, h.owner⟩
  refine { hquiet with
    table := h.table.release j now, held := hkept.1, owner := hkept.2, pc := trivial,
    unused := fun hnil => ?_ }
  have hunused := (h.unused hnil).2
  rw [hpc] at hunused
  exact hunused.elim

/-- After a refresh the prompt of the template has the memory of that time. -/
theorem Live.refreshed {s : State} (h : Live cfg i log s agent) (hpc : s.pc = .answered) :
    Live cfg i (log ++ [.refreshed (readMemoryFile s.fs s.mem)])
      { s with template := refreshMemory s.fs s.mem s.memorySlot s.template, pc := .prompt } agent := by
  have hrenewed : Renewed (log ++ [.refreshed (readMemoryFile s.fs s.mem)]) ↔ Renewed log := by
    rw [renewed_snoc]
    exact or_iff_left (fun hnew => hnew.1)
  have hslot : s.memorySlot < s.template.systemParts.length := by
    rw [h.template, h.slot, promptParts, List.length_append, List.length_cons]
    omega
  have htemplate : refreshMemory s.fs s.mem s.memorySlot s.template = { s.template with
      systemParts := s.template.systemParts.set s.memorySlot (memoryGetContext s.fs s.mem) } := by
    simp only [refreshMemory, if_pos hslot, h.blank]
  rw [htemplate]
  refine { h with
    template := ?_, young := hrenewed.mpr ∘ h.young, pc := trivial, unused := ?_, begun := ?_ }
  · rw [lastRead_snoc, h.template, h.slot, promptParts, promptParts]
    simp [memoryGetContext]
  · intro hnil
    have hunused := (h.unused hnil).2
    rw [hpc] at hunused
    exact hunused.elim
  · intro hne
    obtain ⟨hhead, hchat, hold⟩ := h.begun hne
    exact ⟨hhead, chats_snoc hchat _, hold ∘ hrenewed.mp⟩

theorem quiet_chat (e : AgentLoop.Event) : Quiet (.chat e) := ⟨id, id, fun _ => by simp⟩

theorem setAgent_held {s : State} (h : s.sessions.Holds i key) (agent : Agent) :
    (s.setAgent i agent).sessions.Holds i key := by
  rw [Manager.Holds, State.setAgent_self]
  exact h

theorem setAgent_table {s : State} (h : s.sessions.Valid) (i : Fin sessionMax) (agent : Agent) :
    (s.setAgent i agent).sessions.Valid := by
  refine h.relabel rfl (fun j => ?_)
  by_cases hj : j = i
  · subst hj
    rw [State.setAgent_self]
    exact ⟨rfl, rfl⟩
  · rw [State.setAgent_ne s agent hj]
    exact ⟨rfl, rfl⟩

theorem Live.chat {s : State} (h : Live cfg i log s agent) (hpc : s.pc = .chatting i text q)
    (htalk : AgentLoop.Step cj registry ⟨agent, q⟩ e c) (hbegins : Begins text e) :
    Live cfg i (log ++ [.chat e])
      { s.setAgent i c.agent with
        old := oldAfter ⟨agent, q⟩ e s.old
        pc := if e.returned.isSome then .releasing i else .chatting i text c.pc } c.agent := by
  have hquiet := h.quiet (quiet_chat e)
  have hat := h.pc
  rw [hpc] at hat
  obtain ⟨-, htext, hchats, hfloor⟩ := hat
  have hpc' : Floored c.pc → At i (log ++ [.chat e])
      (if e.returned.isSome then .releasing i else .chatting i text c.pc) := by
    intro hfloor
    split
    · trivial
    · exact ⟨rfl, htext, chats_snoc hchats _, hfloor⟩
  by_cases hnil : agent.messages = []
  · have hunused := h.unused hnil
    rw [hpc] at hunused
    have hold : s.old = [] := List.length_eq_zero_iff.mp (by rw [h.marked, hnil]; rfl)
    obtain rfl : q = .idle := by
      cases q with
      | idle => rfl
      | asking | running => exact hunused.2.elim
    obtain ⟨text', rfl⟩ : ∃ text', e = .began text' := by
      cases htalk with
      | refused => exact absurd hbegins htext
      | began => exact ⟨_, rfl⟩
      | _ pc => cases pc
    obtain ⟨hhead, hparts, hiterations, hmarked, hyoung, hfloor'⟩ := chat_begun htalk hnil
    have hne : c.agent.messages ≠ [] := by
      obtain ⟨m, rest, hcons, -⟩ := hhead
      rw [hcons]
      exact List.cons_ne_nil m rest
    rw [hold]
    rw [h.parts] at hhead
    exact {
      slot := hquiet.slot
      template := hquiet.template
      blank := hquiet.blank
      table := setAgent_table h.table i c.agent
      held := setAgent_held h.held c.agent
      owner := congrArg Slot.agent (State.setAgent_self s i c.agent)
      parts := hparts.trans h.parts
      iterations := hiterations.trans h.iterations
      marked := hmarked
      young := fun hmem => absurd hmem hyoung
      pc := hpc' hfloor'
      unused := fun hnil' => absurd hnil' hne
      begun := fun _ => ⟨hhead, chats_snoc hchats _, fun hr =>
        absurd ((quiet_chat _).renewed.mp hr) hunused.1⟩ }
  · obtain ⟨hkept, hfloor'⟩ := chat_kept htalk hfloor hnil s.old
    obtain ⟨hhead, -, holdest⟩ := h.begun hnil
    have hold : s.old ≠ [] := by
      rw [← List.length_pos_iff, h.marked]
      exact List.length_pos_of_ne_nil hnil
    exact {
      slot := hquiet.slot
      template := hquiet.template
      blank := hquiet.blank
      table := setAgent_table h.table i c.agent
      held := setAgent_held h.held c.agent
      owner := congrArg Slot.agent (State.setAgent_self s i c.agent)
      parts := hkept.parts.trans h.parts
      iterations := hkept.iterations.trans h.iterations
      marked := hkept.marked h.marked
      young := hquiet.young ∘ hkept.young
      pc := hpc' hfloor'
      unused := fun hnil' => absurd hnil' (hkept.begun hnil)
      begun := fun _ => ⟨hkept.head _ hhead, (hquiet.begun hnil).2.1, fun hr =>
        (hkept.oldest hold).trans ((hquiet.begun hnil).2.2 hr)⟩ }

theorem quiet_store (disk : Disk) (category : Option Str) (key : Str) (value : Option Str) :
    Quiet (.store disk category key value) := ⟨id, id, fun _ => by simp⟩

theorem quiet_blank (h : strTrim line = []) : Quiet (.typed line) := by
  refine ⟨fun hchats => hchats.1 h, fun hnew => ?_, fun _ => by simp⟩
  have hnil : newCommand = [] := hnew.symm.trans h
  cases hnil

theorem Live.step {s t : State} (h : Live cfg i log s agent) (hs : Step cj registry s e t) :
    ∃ agent', Live cfg i (log ++ [e]) t agent' := by
  cases hs with
  | blank pc blank => exact ⟨agent, h.quiet (quiet_blank blank)⟩
  | command pc handled stays => exact ⟨agent, h.command pc handled⟩
  | turn pc text plain => exact ⟨agent, h.turn text plain⟩
  | store => exact ⟨agent, { h.quiet (quiet_store ..) with }⟩
  | looked pc made =>
    rw [h.given] at made
    cases made
    exact ⟨agent, h.looked pc⟩
  | chat pc owner talk begins =>
    have hat := h.pc
    rw [pc] at hat
    obtain rfl := hat.1
    obtain rfl := Option.some.inj (owner.symm.trans h.owner)
    exact ⟨_, h.chat pc talk begins⟩
  | released pc => exact ⟨agent, h.released pc _⟩
  | refreshed pc => exact ⟨agent, h.refreshed pc⟩

theorem boot_live (cfg : Config) : ∃ i agent, Live cfg i [] (boot cfg) agent := by
  obtain ⟨agent, hfactory, hparts, hmessages, hiterations⟩ := factory_clone cfg
  have hvalid := create_valid (α := Agent) cfg.sessionTtl
  obtain ⟨i, hmade⟩ : ∃ i, sessionGetOrCreate agentFactory (sessionManagerCreate cfg.sessionTtl)
      (bootAgent cfg) cliChannel cliChat cfg.tEvict cfg.tCreate =
      (some i, (sessionManagerCreate cfg.sessionTtl).put i (sessionKey cliChannel cliChat) agent
        cfg.tCreate, bootAgent cfg) := by
    have hroom : (sessionManagerCreate cfg.sessionTtl : Manager Agent).room cfg.tEvict =
        sessionManagerCreate cfg.sessionTtl := by
      rw [Manager.room, if_neg]
      intro hall
      cases hall ⟨0, by decide⟩
    rcases getOrCreate_cases agentFactory hvalid (bootAgent cfg) cliChannel cliChat cfg.tEvict
      cfg.tCreate with ⟨j, hj, -⟩ | ⟨-, i, agent', data, -, hdata, hr⟩ | ⟨-, -, data, hdata, -⟩ |
      ⟨-, hall, -⟩
    · cases hj
    · cases hfactory.symm.trans hdata
      rw [hroom] at hr
      exact ⟨i, hr⟩
    · cases hfactory.symm.trans hdata
    · rw [hroom] at hall
      cases hall ⟨0, by decide⟩
  have hbody := addPart_body (bootAgent cfg) ((given cfg.address).map emailIdentity)
  have hsm := hvalid.getOrCreate agentFactory (bootAgent cfg) cliChannel cliChat cfg.tEvict cfg.tCreate
  rw [hmade] at hsm
  have hfive := promptParts_length cfg (bootText cfg)
  have htemplate : (addPart (bootAgent cfg) ((given cfg.address).map emailIdentity)).systemParts =
      promptParts cfg (bootText cfg) (identityPart cfg) := by
    rw [addPart_parts, bootAgent_parts, promptParts, promptParts, List.append_nil, List.append_assoc,
      List.cons_append]
    · rfl
    · rw [bootAgent_parts]
      exact Nat.lt_of_le_of_lt hfive (by decide)
  refine ⟨i, agent, ?_⟩
  have hboot : boot cfg = { boot cfg with
      template := addPart (bootAgent cfg) ((given cfg.address).map emailIdentity)
      sessions := (sessionManagerCreate cfg.sessionTtl).put i (sessionKey cliChannel cliChat) agent
        cfg.tCreate } := by
    simp only [boot, hmade]
  rw [hboot]
  exact {
    slot := rfl
    template := htemplate
    blank := hbody.messages.trans (bootAgent_body cfg).1
    table := hsm
    held := getOrCreate_holds hvalid hmade
    owner := by simp [Manager.put]
    parts := hparts
    iterations := hiterations
    marked := by rw [hmessages]; rfl
    young := fun hmem => absurd hmem List.not_mem_nil
    pc := trivial
    unused := fun _ => ⟨not_renewed_nil, fun t ht => absurd ht List.not_mem_nil⟩
    begun := fun hne => absurd hmessages hne }

theorem reached_live (h : Run (Step cj registry) (boot cfg) log s) :
    ∃ i agent, Live cfg i log s agent := by
  refine h.invariant_log (P := fun log s => ∃ i agent, Live cfg i log s agent) (boot_live cfg) ?_
  rintro log s e t ⟨i, agent, hlive⟩ hs
  exact ⟨i, hlive.step hs⟩

/-- A call of the provider. -/
def Event.Calls : Event → Prop
  | .chat e => e.request.isSome = true
  | _ => False

/-- The agent of the terminal's session is about to call the provider for the first
time in its turn. -/
def FirstCall (s : State) (e : Event) : Prop :=
  e.Calls ∧ ∃ i text pre, s.pc = .chatting i text (.asking pre 0)

/-- The history of the session has no message from before the last `/new`, and its
system message is the prompt of the template. -/
def Consistent (s : State) : Prop :=
  true ∉ s.old ∧ ∃ i text q agent, s.pc = .chatting i text q ∧
    (s.sessions.slots i).agent = some agent ∧ Headed (buildSystemPrompt s.template) agent.messages

theorem Headed.inj (h : Headed prompt messages) : Headed prompt' messages ↔ prompt = prompt' := by
  obtain ⟨m, rest, rfl, hrole, hcontent⟩ := h
  constructor
  · rintro ⟨m', rest', hcons, -, hcontent'⟩
    cases hcons
    exact hcontent.symm.trans hcontent'
  · intro heq
    exact ⟨m, rest, rfl, hrole, hcontent.trans heq⟩

theorem Live.consistent_iff {s : State} (h : Live cfg i log s agent)
    (hpc : s.pc = .chatting j text (.asking pre 0)) :
    Consistent s ↔ ¬ Renewed log ∧ composed (promptParts cfg (bootText cfg) []) =
      composed (promptParts cfg (lastRead cfg log) (identityPart cfg)) := by
  have hne : agent.messages ≠ [] := by
    intro hnil
    have hunused := (h.unused hnil).2
    rw [hpc] at hunused
    exact hunused
  obtain ⟨hhead, -, hold⟩ := h.begun hne
  have hyoung : true ∉ s.old ↔ ¬ Renewed log := by
    refine not_congr ⟨h.young, fun hr => ?_⟩
    exact List.mem_of_mem_head? (hold hr)
  have hat := h.pc
  rw [hpc] at hat
  obtain rfl := hat.1
  have hprompt : buildSystemPrompt s.template =
      composed (promptParts cfg (lastRead cfg log) (identityPart cfg)) := by
    rw [← h.template]
    rfl
  rw [Consistent, hyoung, hprompt, ← hhead.inj]
  refine and_congr_right fun _ => ⟨?_, fun hsame => ?_⟩
  · rintro ⟨i', text', q, agent', hpc', howner, hsame⟩
    cases hpc.symm.trans hpc'
    cases howner.symm.trans h.owner
    exact hsame
  · exact ⟨_, _, _, agent, hpc, h.owner, hsame⟩

theorem composed_memory (cfg : Config) (a b : Str) :
    composed (promptParts cfg a []) = composed (promptParts cfg b []) ↔ a = b := by
  constructor
  · intro h
    simp only [composed, promptParts, List.flatMap_append, List.flatMap_cons,
      List.append_cancel_left_eq, List.append_cancel_right_eq] at h
    exact h
  · rintro rfl
    rfl

/-- The identity makes the prompt longer. -/
theorem composed_identity {cfg : Config} (h : (given cfg.address).isSome = true) (memory : Str) :
    composed (promptParts cfg memory []) ≠ composed (promptParts cfg memory (identityPart cfg)) := by
  obtain ⟨address, hsome⟩ := Option.isSome_iff_exists.mp h
  intro heq
  have hlength := congrArg List.length heq
  simp [composed, promptParts, identityPart, hsome] at hlength

/-- No provider has been called. -/
def Uncalled : Pc → Prop
  | .prompt | .posted _ => True
  | .chatting _ _ q => q = .idle ∨ ∃ pre, q = .asking pre 0
  | _ => False

/-- Without a provider call nothing is answered and nothing refreshed. -/
def Early (log : List Event) (s : State) : Prop :=
  (∀ e ∈ log, ¬ e.Calls) → Uncalled s.pc ∧ ∀ text, .refreshed text ∉ log

theorem Early.step {s t : State} (h : Early log s) (hlive : Live cfg i log s agent)
    (hmore : 0 < cfg.maxIterations) (hs : Step cj registry s e t) : Early (log ++ [e]) t := by
  intro hcalls
  obtain ⟨hpc, hread⟩ := h (fun x hx => hcalls x (List.mem_append_left _ hx))
  have hcall := hcalls e (List.mem_append_right _ List.mem_cons_self)
  have hkept : (∀ text, e ≠ .refreshed text) → ∀ text, .refreshed text ∉ log ++ [e] := by
    intro hne text hmem
    rcases List.mem_append.mp hmem with hmem | hmem
    · exact hread text hmem
    · exact hne text (List.mem_singleton.mp hmem).symm
  cases hs with
  | blank | command | store => exact ⟨hpc, hkept (fun _ => by simp)⟩
  | turn => exact ⟨trivial, hkept (fun _ => by simp)⟩
  | looked pc made =>
    rw [hlive.given] at made
    cases made
    exact ⟨Or.inl rfl, hkept (fun _ => by simp)⟩
  | chat pc owner talk begins =>
    refine ⟨?_, hkept (fun _ => by simp)⟩
    have hat := hlive.pc
    rw [pc] at hat hpc
    obtain rfl := hat.1
    obtain rfl := Option.some.inj (owner.symm.trans hlive.owner)
    cases talk with
    | refused => exact absurd begins hat.2.1
    | began => exact Or.inr ⟨_, rfl⟩
    | failed | called | answered => exact absurd rfl hcall
    | ran hq | unknown hq | looped hq =>
      obtain rfl : _ = _ := hq
      rcases hpc with hpc | ⟨_, hpc⟩ <;> cases hpc
    | exhausted hq done =>
      obtain rfl : _ = _ := hq
      rcases hpc with hpc | ⟨_, hpc⟩ <;> cases hpc
      rw [hlive.iterations] at done
      omega
  | released pc | refreshed pc =>
    rw [pc] at hpc
    exact hpc.elim

theorem reached_early (hmore : 0 < cfg.maxIterations)
    (h : Run (Step cj registry) (boot cfg) log s) : Early log s := by
  refine (h.invariant_log (P := fun log s => (∃ i agent, Live cfg i log s agent) ∧ Early log s)
    ⟨boot_live cfg, fun _ => ⟨trivial, fun _ => List.not_mem_nil⟩⟩ ?_).2
  rintro log s e t ⟨⟨i, agent, hlive⟩, hearly⟩ hs
  exact ⟨⟨i, hlive.step hs⟩, hearly.step hlive hmore hs⟩

theorem lastRead_early (cfg : Config) {log : List Event} (h : ∀ text, .refreshed text ∉ log) :
    lastRead cfg log = bootText cfg := by
  induction log using List.reverseRecOn with
  | nil => rfl
  | append_singleton log e ih =>
    rw [lastRead_snoc]
    cases e with
    | refreshed text => exact absurd (List.mem_append_right _ List.mem_cons_self) (h text)
    | _ => exact ih (fun text hmem => h text (List.mem_append_left _ hmem))

/-- A provider is called only from inside a turn, with an iteration to go. -/
theorem Step.calls {s t : State} (h : Live cfg i log s agent) (hs : Step cj registry s e t)
    (hcalls : e.Calls) : ∃ text pre iter, s.pc = .chatting i text (.asking pre iter) ∧
      0 ≤ iter ∧ iter < cfg.maxIterations := by
  cases hs with
  | chat pc owner talk begins =>
    have hat := h.pc
    rw [pc] at hat
    obtain rfl := hat.1
    obtain rfl := Option.some.inj (owner.symm.trans h.owner)
    cases talk with
    | failed hq more | called hq more | answered hq more =>
      obtain rfl : _ = _ := hq
      exact ⟨_, _, _, pc, hat.2.2.2.2, h.iterations ▸ more⟩
    | _ => exact absurd hcalls Bool.false_ne_true
  | _ => exact hcalls.elim

/-- What holds in a run wherever a turn makes its first provider call. -/
def AtFirstCalls (cj : Codec) (registry : Str → Bool) (cfg : Config) (log : List Event)
    (P : List Event → State → Prop) : Prop :=
  ∀ p e q s t, log = p ++ e :: q → Run (Step cj registry) (boot cfg) p s →
    Step cj registry s e t → FirstCall s e → P p s

/-- There is no email identity, the memory is read as at boot, and no turn is older than
the last `/new`. -/
structure Unmoved (cfg : Config) (log : List Event) : Prop where
  address : given cfg.address = none
  memory : lastRead cfg log = bootText cfg
  kept : ¬ Renewed log

theorem Unmoved.composed (h : Unmoved cfg log) : composed (promptParts cfg (bootText cfg) []) =
    composed (promptParts cfg (lastRead cfg log) (identityPart cfg)) := by
  rw [h.memory, identityPart, h.address]
  rfl

/-- The prompt of the first turn of all has no email identity. -/
theorem first_turn_address {s t : State} (h : AtFirstCalls cj registry cfg log (fun _ => Consistent))
    (hlog : log = p ++ e :: q) (hp : Run (Step cj registry) (boot cfg) p s)
    (hs : Step cj registry s e t) (hcalls : e.Calls) : given cfg.address = none := by
  obtain ⟨i, agent, hlive⟩ := reached_live hp
  obtain ⟨_, _, iter, -, hiter, hmore⟩ := hs.calls hlive hcalls
  obtain ⟨p₀, e₀, q₀, s₀, t₀, hsplit, hp₀, hs₀, hcalls₀, hnone⟩ := (hp.snoc hs).first (P := Event.Calls)
    ⟨e, List.mem_append_right _ List.mem_cons_self, hcalls⟩
  obtain ⟨i₀, agent₀, hlive₀⟩ := reached_live hp₀
  obtain ⟨huncalled, hread⟩ := reached_early (Int.lt_of_le_of_lt hiter hmore) hp₀ hnone
  obtain ⟨text, pre, iter₀, hpc, -⟩ := hs₀.calls hlive₀ hcalls₀
  rw [hpc] at huncalled
  rcases huncalled with hidle | ⟨_, hasking⟩
  · cases hidle
  · cases hasking
    have hlog₀ : log = p₀ ++ e₀ :: (q₀ ++ q) := by
      rw [hlog, List.append_cons, hsplit, List.append_assoc, List.cons_append]
    have hconsistent := h _ _ _ _ _ hlog₀ hp₀ hs₀ ⟨hcalls₀, _, _, _, hpc⟩
    have hprompt := ((hlive₀.consistent_iff hpc).mp hconsistent).2
    rw [lastRead_early cfg hread] at hprompt
    cases hgiven : given cfg.address with
    | none => rfl
    | some address =>
      exact absurd hprompt (composed_identity (Option.isSome_iff_exists.mpr ⟨address, hgiven⟩) _)

/-- At every first provider call of a run the terminal's session agrees with the template,
exactly where all of them come without an email identity, with the memory as at boot and
before any `/new` that follows a turn. -/
theorem conversation_consistent_iff (cj : Codec) (registry : Str → Bool) (cfg : Config)
    (log : List Event) :
    AtFirstCalls cj registry cfg log (fun _ => Consistent) ↔
      AtFirstCalls cj registry cfg log (fun p _ => Unmoved cfg p) := by
  constructor
  · intro h p e q s t hlog hp hs hfirst
    have haddress := first_turn_address h hlog hp hs hfirst.1
    obtain ⟨i, agent, hlive⟩ := reached_live hp
    obtain ⟨j, text, pre, hpc⟩ := hfirst.2
    obtain ⟨hkept, hprompt⟩ := (hlive.consistent_iff hpc).mp (h p e q s t hlog hp hs hfirst)
    refine ⟨haddress, ?_, hkept⟩
    rw [identityPart, haddress] at hprompt
    exact ((composed_memory cfg _ _).mp hprompt).symm
  · intro h p e q s t hlog hp hs hfirst
    have hunmoved := h p e q s t hlog hp hs hfirst
    obtain ⟨i, agent, hlive⟩ := reached_live hp
    obtain ⟨j, text, pre, hpc⟩ := hfirst.2
    exact (hlive.consistent_iff hpc).mpr ⟨hunmoved.kept, hunmoved.composed⟩

def sampleConfig : Config where
  workspace := "w".toList
  fs _ := none
  entries := []
  skillsPrompt := none
  address := some "dobby@example".toList
  maxIterations := 10
  maxMessages := 20
  sessionTtl := 3600
  fmt := ⟨false, false, false⟩
  tEvict := 0
  tCreate := 0

/-- Already the first request of the first turn has a prompt without the email identity. -/
theorem identity_missing : ∃ cj registry log t, Run (Step cj registry) (boot sampleConfig) log t ∧
    ¬ AtFirstCalls cj registry sampleConfig log (fun _ => Consistent) := by
  obtain ⟨i, agent, hlive⟩ := boot_live sampleConfig
  let cj : Codec := ⟨fun _ => none, fun _ => []⟩
  let registry : Str → Bool := fun _ => false
  have htext : strTrim "hi".toList ≠ [] := by decide
  have hturn : Step cj registry (boot sampleConfig) (.typed "hi".toList) _ := .turn rfl htext rfl
  have hturned := hlive.turn htext rfl
  have hlook : Step cj registry _ .looked _ := .looked rfl (hturned.given 0 0)
  have hlooked := hturned.looked rfl
  have hbegin : AgentLoop.Step cj registry ⟨agent, .idle⟩ (.began (strTrim "hi".toList)) _ :=
    .began rfl htext
  have hchat : Step cj registry _ (.chat (.began (strTrim "hi".toList))) _ :=
    .chat rfl hlooked.owner hbegin rfl
  have hchatted := hlooked.chat rfl hbegin rfl
  have hten : 0 < sampleConfig.maxIterations := by decide
  have hmore := hten.trans_eq hchatted.iterations.symm
  have hfail : Step cj registry _ (.chat (.failed _ "timeout".toList)) _ :=
    .chat rfl hchatted.owner (.failed rfl hmore) trivial
  have hrun := ((Run.single hturn).snoc hlook).snoc hchat
  refine ⟨cj, registry, _, _, hrun.snoc hfail, fun h => ?_⟩
  have hconsistent := h _ _ [] _ _ rfl hrun hfail ⟨rfl, i, _, _, rfl⟩
  have hprompt := ((hchatted.consistent_iff rfl).mp hconsistent).2
  rw [lastRead_early sampleConfig (fun text hmem => by simp at hmem)] at hprompt
  exact composed_identity (by decide) _ hprompt

end Dobby.Cli
