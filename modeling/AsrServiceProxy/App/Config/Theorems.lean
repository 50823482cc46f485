import AsrServiceProxy.App.Config

-- What is read of the file, and where the settings of the service come from.
namespace AsrServiceProxy.App

open CMemory StringUtil

-- A file without NUL is read as it is exactly when the memory behind the buffer
-- begins with a NUL.
theorem readFileContent_iff (content adjacent : Bytes) (hz : 0 ∉ content)
    (hpos : 1 ≤ content.length) (hle : content.length ≤ 2147483647 / 4) :
    readFileContent (some content) adjacent = some (content, (content.length : ℤ)) ↔
      adjacent.head? = some 0 := by
  have hsize : intOfSize content.length = content.length := intOfSize_of_lt (by omega)
  have hbounds : ¬((content.length : ℤ) ≤ 0 ∨ 2147483647 / 4 < (content.length : ℤ)) := by omega
  have hread : readFileContent (some content) adjacent =
      if 0 ∈ content ++ adjacent then
        some (cstr (content ++ adjacent), (content.length : ℤ))
      else none := by
    unfold readFileContent
    dsimp only
    rw [hsize, if_neg hbounds, Int.toNat_natCast, List.take_length]
  have hall : ∀ b ∈ content, decide (b ≠ 0) = true := by
    intro b hb
    apply decide_eq_true
    rintro rfl
    exact hz hb
  have hcut : cstr (content ++ adjacent) = content ++ cstr adjacent := by
    rw [cstr, List.takeWhile_append_of_pos hall]
    rfl
  rw [hread, hcut]
  cases adjacent with
  | nil => simp [hz]
  | cons b rest =>
      by_cases hb : b = 0
      · subst hb
        simp [cstr]
      · have hkept : cstr (b :: rest) ≠ [] := by
          rw [cstr, List.takeWhile_cons, if_pos (by simpa using hb)]
          exact List.cons_ne_nil _ _
        constructor
        · intro hsome
          split at hsome
          · have hpair := Option.some.inj hsome
            exact absurd (List.append_right_eq_self.mp (congrArg Prod.fst hpair)) hkept
          · cases hsome
        · intro hhead
          exact absurd (Option.some.inj hhead) hb

theorem readFileContent_terminated :
    readFileContent (some [123, 125]) [0] = some ([123, 125], (2 : ℤ)) :=
  (readFileContent_iff [123, 125] [0] (by decide) (by decide) (by decide)).mpr rfl

-- Two bytes behind the buffer that belong to something else.
theorem not_readFileContent : ¬∀ content adjacent : Bytes, 0 ∉ content → 1 ≤ content.length →
    content.length ≤ 2147483647 / 4 →
    readFileContent (some content) adjacent = some (content, (content.length : ℤ)) := by
  intro hall
  have hread := hall [123, 125] [120, 0] (by decide) (by decide) (by decide)
  have hmore : readFileContent (some [123, 125]) [120, 0] = some ([123, 125, 120], 2) := by
    decide +kernel
  rw [hmore] at hread
  cases hread

-- What a member holds.
inductive FieldValue where
  | text (value : Bytes)
  | number (value : ℤ)
  | switch (value : Bool)
deriving DecidableEq, Repr

def ServiceConfig.get (conf : ServiceConfig) : Setting → FieldValue
  | .asrApiSource => .text conf.asrApiSource
  | .appKey => .text conf.appKey
  | .appSecretKey => .text conf.appSecretKey
  | .asrServer => .text conf.asrServer
  | .audioFormat => .text conf.audioFormat
  | .audioType => .number conf.audioType
  | .capacityScope => .text conf.capacityScope
  | .concurrentNumber => .number conf.concurrentNumber
  | .enableAsrService => .switch conf.enableAsrService
  | .logOffMs => .number conf.logOffMs
  | .serverPort => .number conf.serverPort

namespace Setting

-- A text as a value for the member.
def convert (text : Bytes) : Setting → FieldValue
  | .audioType | .concurrentNumber | .logOffMs | .serverPort => .number (atoi text)
  | .enableAsrService => .switch (toBool text)
  | .asrApiSource | .appKey | .appSecretKey | .asrServer | .audioFormat | .capacityScope =>
      .text (cstr text)

-- The last column of `s_options`.
def documented : Setting → Bytes
  | .asrApiSource => ascii "baidu"
  | .appKey => ascii "kVcnfD9iW2XVZSMaLMrtLYIz"
  | .appSecretKey => ascii "O9o1O213UgG5LFn0bDGNtoRN3VWl2du6"
  | .asrServer => ascii "http://vop.baidu.com/server_api"
  | .audioFormat => ascii "pcm"
  | .audioType => ascii "1537"
  | .capacityScope => ascii "audio_voice_assistant_get"
  | .concurrentNumber => ascii "2"
  | .enableAsrService => ascii "true"
  | .logOffMs => ascii "2000"
  | .serverPort => ascii "8005"

-- What the file says about the member.
def ofMember (value : Json.Value) : Setting → Option FieldValue
  | .enableAsrService => value.asBool.toOption.map .switch
  | s => (value.asString >>= trim).toOption.map fun text => s.convert text

def inEntries (entries : List (Bytes × Json.Value)) (s : Setting) : Option FieldValue :=
  match entries.lookup s.fileKey with
  | none => none
  | some value => if value.isNull then none else s.ofMember value

def inFile (reader : Json.Reader) (read : Bytes × ℤ) (s : Setting) : Option FieldValue :=
  if read.2 = 0 then none
  else
    match reader read.1 with
    | some (.objectValue members) =>
        match members.lookup (ascii "configuration") with
        | some (.objectValue entries) => s.inEntries entries
        | _ => none
    | _ => none

def optionName : Setting → Bytes
  | .asrApiSource => ascii "asr-api-source"
  | .appKey => ascii "app-key"
  | .appSecretKey => ascii "app-secret-key"
  | .asrServer => ascii "asr-server"
  | .audioFormat => ascii "audio-format"
  | .audioType => ascii "audio-type"
  | .capacityScope => ascii "capacity-scope"
  | .concurrentNumber => ascii "concurrent-number"
  | .enableAsrService => ascii "enable-asr-service"
  | .logOffMs => ascii "log-off-ms"
  | .serverPort => ascii "server-port"

-- The enumerators of `opt_id_t`, and the two addresses that are not NULL.
def opt : Setting → ℤ
  | .asrApiSource => 1
  | .appKey => 2
  | .appSecretKey => 3
  | .asrServer => 4
  | .audioFormat => 5
  | .audioType => 6
  | .capacityScope => 7
  | .concurrentNumber => 8
  | .enableAsrService => 9
  | .logOffMs => 10
  | .serverPort => 11

def flag : Setting → ℕ
  | .logOffMs => 2000
  | .serverPort => 8005
  | _ => 0

end Setting

-- An option on the command line, with one dash or two, and with its argument in the
-- same element or in the next one.
structure Occurrence where
  setting : Setting
  argument : Bytes
  twoDashes : Bool
  joined : Bool
  isString : 0 ∉ argument

def Occurrence.elements (o : Occurrence) : List Bytes :=
  let option := (if o.twoDashes then [45, 45] else [45]) ++ o.setting.optionName
  if o.joined then [option ++ 61 :: o.argument] else [option, o.argument]

-- Without white space and quotation marks at its ends.
def cleaned (argument : Bytes) : Bytes := (argument.dropWhile isMark).rdropWhile isMark

-- The last occurrence of the option counts, then the file, then the default.
def layered (reader : Json.Reader) (read : Bytes × ℤ) (occurrences : List Occurrence)
    (s : Setting) : FieldValue :=
  match occurrences.reverse.find? (·.setting = s) with
  | some o => s.convert (cleaned o.argument)
  | none => (s.inFile reader read).getD (s.convert s.documented)

-- The command line is read to its end, and every member holds what it should.
def Layered (reader : Json.Reader) (read : Bytes × ℤ) (conf : ServiceConfig)
    (program : Bytes) (occurrences : List Occurrence) : Prop :=
  ∃ r, loadCommandLine (program :: occurrences.flatMap Occurrence.elements) conf = some r ∧
    r.ret = 0 ∧ ∀ s, r.conf.get s = layered reader read occurrences s

section

variable {conf conf' : ServiceConfig} {entries : List (Bytes × Json.Value)} {s : Setting}

-- An option sets its member and no other.
theorem get_setOption (conf : ServiceConfig) (optarg : Bytes) (s t : Setting) :
    (conf.setOption optarg s).get t = if t = s then s.convert optarg else conf.get t := by
  cases s <;> cases t <;> rfl

theorem get_setEnableAsrService (conf : ServiceConfig) (enable : Bool) (t : Setting) :
    (conf.setEnableAsrService enable).get t =
      if t = .enableAsrService then .switch enable else conf.get t := by
  cases t <;> rfl

theorem mem_fileOrder (s : Setting) : s ∈ Setting.fileOrder := by
  cases s <;> decide

theorem get_initDefault (s : Setting) : initDefault.get s = s.convert s.documented := by
  have hs := mem_fileOrder s
  revert s
  decide +kernel

theorem get_setMember {value : Json.Value} (h : conf.setMember value s = .ok conf') (t : Setting) :
    conf'.get t = if t = s then (s.ofMember value).getD (conf.get t) else conf.get t := by
  by_cases henable : s = .enableAsrService
  · subst henable
    rw [ServiceConfig.setMember] at h
    rw [Setting.ofMember]
    cases hbool : value.asBool with
    | error e =>
        rw [hbool] at h
        cases h
    | ok enable =>
        rw [hbool] at h
        rw [← Except.ok.inj h, get_setEnableAsrService]
        rfl
  · have hset : conf.setMember value s =
        (value.asString >>= trim).map fun text => conf.setOption text s := by
      rw [ServiceConfig.setMember]
      exact henable
    have hmember : s.ofMember value =
        (value.asString >>= trim).toOption.map fun text => s.convert text := by
      rw [Setting.ofMember]
      exact henable
    rw [hset] at h
    rw [hmember]
    cases htext : value.asString >>= trim with
    | error e =>
        rw [htext] at h
        cases h
    | ok text =>
        rw [htext] at h
        rw [← Except.ok.inj h, get_setOption]
        rfl

theorem get_loadSetting (h : loadSetting (.objectValue entries) conf s = .ok conf') (t : Setting) :
    conf'.get t = if t = s then (s.inEntries entries).getD (conf.get t) else conf.get t := by
  have hkept (h : conf = conf') : conf'.get t =
      if t = s then (none : Option FieldValue).getD (conf.get t) else conf.get t := by
    rw [← h, Option.getD_none, ite_self]
  obtain ⟨value, hmember, h⟩ := except_bind_ok h
  have hvalue : value = (entries.lookup s.fileKey).getD .nullValue := (Except.ok.inj hmember).symm
  rw [Setting.inEntries]
  cases hlookup : entries.lookup s.fileKey with
  | none =>
      rw [hlookup, Option.getD_none] at hvalue
      subst hvalue
      exact hkept (Except.ok.inj h)
  | some member =>
      rw [hlookup, Option.getD_some] at hvalue
      subst hvalue
      dsimp only
      by_cases hnull : value.isNull = true
      · rw [if_pos hnull] at h ⊢
        exact hkept (Except.ok.inj h)
      · rw [if_neg hnull] at h ⊢
        exact get_setMember h t

-- Members that are set one after the other.
theorem get_foldlM_loadSetting {order : List Setting} (hnodup : order.Nodup)
    (h : order.foldlM (loadSetting (.objectValue entries)) conf = .ok conf') (t : Setting) :
    conf'.get t = if t ∈ order then (t.inEntries entries).getD (conf.get t) else conf.get t := by
  induction order generalizing conf with
  | nil =>
      rw [List.foldlM_nil] at h
      cases h
      rw [if_neg List.not_mem_nil]
  | cons s order ih =>
      rw [List.foldlM_cons] at h
      obtain ⟨next, hnext, hrest⟩ := except_bind_ok h
      have ⟨hs, hnodup⟩ := List.nodup_cons.mp hnodup
      rw [ih hnodup hrest, get_loadSetting hnext]
      by_cases hts : t = s
      · subst hts
        rw [if_neg hs, if_pos rfl, if_pos List.mem_cons_self]
      · rw [if_neg hts]
        simp only [List.mem_cons, hts, false_or]

end

-- A file that is accepted sets the members that it has.
theorem get_construct {reader : Json.Reader} {read : Bytes × ℤ} {conf : ServiceConfig}
    (h : construct reader read = .ok conf) (s : Setting) :
    conf.get s = (s.inFile reader read).getD (s.convert s.documented) := by
  have hkept (h : initDefault = conf) : conf.get s =
      (none : Option FieldValue).getD (s.convert s.documented) := by
    rw [← h, get_initDefault, Option.getD_none]
  rw [construct, loadFromFile, loadJson] at h
  rw [Setting.inFile]
  by_cases hlen : read.2 = 0
  · rw [if_pos hlen] at h ⊢
    exact hkept (Except.ok.inj h)
  rw [if_neg hlen] at h ⊢
  cases hjson : reader read.1 with
  | none =>
      rw [hjson] at h
      exact hkept (Except.ok.inj h)
  | some json =>
      rw [hjson] at h
      dsimp only at h
      cases json with
      | nullValue => exact hkept (Except.ok.inj h)
      | objectValue members =>
          obtain ⟨configuration, hmember, h⟩ := except_bind_ok h
          have hconfiguration := (Except.ok.inj hmember).symm
          dsimp only
          cases hlookup : members.lookup (ascii "configuration") with
          | none =>
              rw [hlookup, Option.getD_none] at hconfiguration
              subst hconfiguration
              exact hkept (Except.ok.inj h)
          | some value =>
              rw [hlookup, Option.getD_some] at hconfiguration
              subst hconfiguration
              cases configuration with
              | nullValue => exact hkept (Except.ok.inj h)
              | objectValue entries =>
                  rw [get_foldlM_loadSetting (by decide) h, if_pos (mem_fileOrder s),
                    get_initDefault]
              | _ => cases h
      | _ => cases h

section

variable {reader : Json.Reader} {read : Bytes × ℤ} {conf : ServiceConfig}

theorem cleanOpt_eq {opt : Bytes} (h : 0 ∉ opt) : cleanOpt opt = cleaned opt := by
  rw [cleanOpt, cleaned, (cstr_eq_self_iff opt).mpr h]
  cases hbody : opt.dropWhile isMark with
  | nil => rfl
  | cons b rest =>
      have hb : ¬isMark b = true := by
        have hhead := List.head_dropWhile_not isMark (l := opt) (by simp [hbody])
        simpa [hbody] using hhead
      dsimp only
      rw [List.rdropWhile, List.reverse_cons, List.dropWhile_append]
      split
      next hempty =>
        rw [List.isEmpty_iff.mp hempty, List.dropWhile_cons_of_neg hb]
        rfl
      next => rw [List.reverse_append, List.reverse_singleton, List.singleton_append]

-- The entry of `s_long_options`.
def Setting.longOption (s : Setting) : LongOption :=
  { name := s.optionName, hasArg := true, flag := s.flag, val := s.opt }

theorem longOption_facts (s : Setting) :
    findOption longOptions s.optionName = some s.longOption ∧ 61 ∉ s.optionName ∧
      (∃ b rest, s.optionName = b :: rest ∧ b ≠ 45) ∧ settingOfOpt s.opt = some s ∧
      s.opt ≠ 104 ∧ s.opt ≠ OPT_HELP := by
  have hname : ∃ b rest, s.optionName = b :: rest ∧ b ≠ 45 := by
    cases s <;> exact ⟨_, _, rfl, by decide⟩
  have hs := mem_fileOrder s
  have hfacts : findOption longOptions s.optionName = some s.longOption ∧ 61 ∉ s.optionName ∧
      settingOfOpt s.opt = some s ∧ s.opt ≠ 104 ∧ s.opt ≠ OPT_HELP := by
    clear hname
    revert s
    decide +kernel
  exact ⟨hfacts.1, hfacts.2.1, hname, hfacts.2.2⟩

theorem optionText_option {name : Bytes} (h : ∃ b rest, name = b :: rest ∧ b ≠ 45)
    (twoDashes : Bool) (rest : Bytes) :
    (if twoDashes then [45, 45] else [45]) ++ name ++ rest ≠ [45, 45] ∧
      optionText ((if twoDashes then [45, 45] else [45]) ++ name ++ rest) = some (name ++ rest) := by
  obtain ⟨b, more, rfl, hb⟩ := h
  cases twoDashes with
  | true => exact ⟨by simp, rfl⟩
  | false =>
      refine ⟨by simp [hb], ?_⟩
      show optionText (45 :: b :: (more ++ rest)) = some (b :: (more ++ rest))
      rw [optionText]
      · nofun
      · rintro text htext
        exact hb (List.cons.inj htext).1

theorem getoptLongOnly_occurrence (o : Occurrence) (argv : List Bytes) :
    getoptLongOnly longOptions (o.elements ++ argv) =
      some (o.setting.longOption.found (some o.argument), argv) := by
  obtain ⟨hfind, hequals, hname, -⟩ := longOption_facts o.setting
  have hall : ∀ b ∈ o.setting.optionName, decide (b ≠ 61) = true := by
    intro b hb
    apply decide_eq_true
    rintro rfl
    exact hequals hb
  rw [Occurrence.elements]
  cases o.joined with
  | true =>
      have ⟨hne, htext⟩ := optionText_option hname o.twoDashes (61 :: o.argument)
      have htake : (o.setting.optionName ++ 61 :: o.argument).takeWhile (· ≠ 61) =
          o.setting.optionName := by
        rw [List.takeWhile_append_of_pos hall]
        exact List.append_nil _
      have hdrop : (o.setting.optionName ++ 61 :: o.argument).dropWhile (· ≠ 61) =
          61 :: o.argument := by
        rw [List.dropWhile_append_of_pos hall]
        rfl
      rw [if_pos rfl, List.singleton_append, getoptLongOnly, if_neg hne, htext]
      dsimp only
      rw [htake, hfind, hdrop]
      rfl
  | false =>
      have ⟨hne, htext⟩ := optionText_option hname o.twoDashes []
      rw [List.append_nil, List.append_nil] at htext
      rw [List.append_nil] at hne
      rw [if_neg Bool.false_ne_true, List.cons_append, List.singleton_append, getoptLongOnly,
        if_neg hne, htext]
      dsimp only
      rw [List.takeWhile_eq_self_iff.mpr hall, hfind, List.dropWhile_eq_nil_iff.mpr hall]
      rfl

variable (occurrences : List Occurrence)

-- An option of a flag that is not NULL ends the loop with 1.
theorem loadCommandLineLoop_cons {n : ℕ} (o : Occurrence) (argv : List Bytes)
    (stores : List (ℕ × ℤ)) :
    loadCommandLineLoop (n + 1) (o.elements ++ argv) conf stores =
      if o.setting.flag = 0 then
        loadCommandLineLoop n argv (conf.setOption (cleaned o.argument) o.setting) stores
      else
        some
          { ret := 1, conf := conf, stores := stores ++ [(o.setting.flag, o.setting.opt)] } := by
  obtain ⟨-, -, -, hsetting, hne, hhelp⟩ := longOption_facts o.setting
  have hnone : ¬(o.setting.opt = 104 ∨ o.setting.opt = OPT_HELP) := not_or.mpr ⟨hne, hhelp⟩
  rw [loadCommandLineLoop, getoptLongOnly_occurrence]
  dsimp only
  rw [LongOption.found, Setting.longOption]
  by_cases hflag : o.setting.flag = 0
  · rw [if_pos hflag, if_pos hflag]
    dsimp only
    rw [if_neg hnone, hsetting, Option.toList_none, List.append_nil, ← cleanOpt_eq o.isString]
  · rw [if_neg hflag, if_neg hflag]
    dsimp only
    rw [if_pos (.inr rfl), Option.toList_some]

theorem loadCommandLineLoop_of_flags (h : ∀ o ∈ occurrences, o.setting.flag = 0) {n : ℕ}
    (hn : occurrences.length < n) (stores : List (ℕ × ℤ)) :
    loadCommandLineLoop n (occurrences.flatMap Occurrence.elements) conf stores =
      some { ret := 0
             conf := occurrences.foldl
               (fun conf o => conf.setOption (cleaned o.argument) o.setting) conf
             stores := stores } := by
  induction occurrences generalizing n conf with
  | nil =>
      obtain ⟨n, rfl⟩ : ∃ k, n = k + 1 := ⟨n - 1, by omega⟩
      rfl
  | cons o occurrences ih =>
      obtain ⟨n, rfl⟩ : ∃ k, n = k + 1 := ⟨n - 1, by omega⟩
      have ⟨ho, hrest⟩ := List.forall_mem_cons.mp h
      rw [List.length_cons] at hn
      rw [List.flatMap_cons, loadCommandLineLoop_cons, if_pos ho, ih hrest (by omega),
        List.foldl_cons]

theorem ret_of_flag (h : ∃ o ∈ occurrences, o.setting.flag ≠ 0) {n : ℕ}
    {stores : List (ℕ × ℤ)} {r : CommandLine}
    (hr : loadCommandLineLoop n (occurrences.flatMap Occurrence.elements) conf stores = some r) :
    r.ret = 1 := by
  induction occurrences generalizing n conf with
  | nil =>
      obtain ⟨o, ho, -⟩ := h
      cases ho
  | cons o occurrences ih =>
      cases n with
      | zero => cases hr
      | succ n =>
          rw [List.flatMap_cons, loadCommandLineLoop_cons] at hr
          by_cases hflag : o.setting.flag = 0
          · rw [if_pos hflag] at hr
            refine ih ?_ hr
            obtain ⟨other, hother, hne⟩ := h
            rcases List.mem_cons.mp hother with rfl | hmem
            · exact absurd hflag hne
            · exact ⟨other, hmem, hne⟩
          · rw [if_neg hflag] at hr
            rw [← Option.some.inj hr]

-- The last occurrence of an option is the one that its member keeps.
theorem get_foldl_setOption (s : Setting) :
    (occurrences.foldl (fun conf o => conf.setOption (cleaned o.argument) o.setting) conf).get s =
      match occurrences.reverse.find? (·.setting = s) with
      | some o => s.convert (cleaned o.argument)
      | none => conf.get s := by
  induction occurrences generalizing conf with
  | nil => rfl
  | cons o occurrences ih =>
      rw [List.foldl_cons, ih, List.reverse_cons, List.find?_append]
      cases occurrences.reverse.find? (·.setting = s) with
      | some last => rfl
      | none =>
          rw [Option.none_or, List.find?_singleton, get_setOption]
          by_cases hs : s = o.setting
          · rw [if_pos hs, if_pos (decide_eq_true hs.symm), hs]
          · rw [if_neg hs, if_neg (by simpa using Ne.symm hs)]

theorem length_le_elements :
    occurrences.length ≤ (occurrences.flatMap Occurrence.elements).length := by
  induction occurrences with
  | nil => exact Nat.le_refl 0
  | cons o occurrences ih =>
      have hpos : 1 ≤ o.elements.length := by
        rw [Occurrence.elements]
        cases o.joined <;> simp
      rw [List.flatMap_cons, List.length_append, List.length_cons]
      omega

theorem flag_eq_zero_iff (s : Setting) : s.flag = 0 ↔ s ≠ .logOffMs ∧ s ≠ .serverPort := by
  cases s <;> decide

-- The layers are kept exactly when no option of a flag that is not NULL occurs.
theorem layered_iff (program : Bytes) (h : construct reader read = .ok conf) :
    Layered reader read conf program occurrences ↔
      ∀ o ∈ occurrences, o.setting ≠ .logOffMs ∧ o.setting ≠ .serverPort := by
  simp only [← flag_eq_zero_iff]
  constructor
  · rintro ⟨r, hr, hret, -⟩
    by_contra hall
    push Not at hall
    have hone := ret_of_flag occurrences hall hr
    omega
  · intro hall
    have hlength := length_le_elements occurrences
    have hrounds : occurrences.length <
        (program :: occurrences.flatMap Occurrence.elements).length + 1 := by
      rw [List.length_cons]
      omega
    refine ⟨_, loadCommandLineLoop_of_flags occurrences hall hrounds [], rfl, ?_⟩
    intro s
    rw [get_foldl_setOption, layered, get_construct h]

end

-- A file that sets the audio type, the port and the switch.
def fileText : Bytes :=
  ascii "\x7b\"configuration\":\x7b\"audio_type\":\"1737\",\"server_port\":80,\"enable_asr_service\":false\x7d\x7d"

def fileReader : Json.Reader := fun text =>
  if text = fileText then
    some (.objectValue [(ascii "configuration", .objectValue
      [(ascii "audio_type", .stringValue (ascii "1737")), (ascii "server_port", .intValue 80),
        (ascii "enable_asr_service", .booleanValue false)])])
  else none

def fileConf : ServiceConfig :=
  { initDefault with audioType := 1737, serverPort := 80, enableAsrService := false }

-- One option twice, in both spellings, and another one between.
theorem layered_audio_type :
    construct fileReader (fileText, fileText.length) = .ok fileConf ∧
      Layered fileReader (fileText, fileText.length) fileConf (ascii "proxy")
        [{ setting := .audioType, argument := [50], twoDashes := true, joined := true,
           isString := by decide },
          { setting := .appKey, argument := ascii " 'k' ", twoDashes := false, joined := false,
            isString := by decide },
          { setting := .audioType, argument := ascii "1936", twoDashes := false, joined := false,
            isString := by decide }] := by
  have hconf : construct fileReader (fileText, fileText.length) = .ok fileConf := by decide +kernel
  refine ⟨hconf, (layered_iff _ (ascii "proxy") hconf).mpr ?_⟩
  simp

-- The port is not taken, and the service shows its help.
theorem not_layered_server_port : ¬∀ (reader : Json.Reader) (read : Bytes × ℤ)
    (conf : ServiceConfig) (program : Bytes) (occurrences : List Occurrence),
    construct reader read = .ok conf → Layered reader read conf program occurrences := by
  intro hall
  obtain ⟨r, hr, hret, -⟩ := hall (fun _ => none) ([], 0) initDefault (ascii "proxy")
    [{ setting := .serverPort, argument := [56, 48], twoDashes := true, joined := false,
       isString := by decide }] rfl
  have hone := ret_of_flag _ ⟨_, List.mem_singleton_self _, by decide⟩ hr
  omega

end AsrServiceProxy.App
