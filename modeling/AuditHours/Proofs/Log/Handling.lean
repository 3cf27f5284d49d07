import AuditHours.Log.Setup
import AuditHours.Proofs.Basic
import AuditHours.Proofs.Json.Fields
import AuditHours.Proofs.Log.Hierarchy

/-!
Which handlers a record comes to. Loggers are made and set up one after the other, in any order and
any number of times. Setting a logger up replaces its handlers and ends the climb of records there,
so the handlers of a logger are those of its last call, and a record comes to those of one logger
only: the first one on its climb that was set up.
-/
namespace AuditHours.Log

open Json

/-! ### Calls that set loggers up -/

def nameAsked? (options : Fields) : Option String :=
  (nameOf ((field? options "name").getD (.str rootName))).toOption

def levelAsked (options : Fields) : Except SetupFault Level :=
  levelOf ((field? options "log_level").getD .null)

def givesFile (options : Fields) : Bool := !((field? options "log_file").getD .null).isEmpty

def lastCall? (calls : List Fields) (name : String) : Option Fields :=
  calls.reverse.find? fun options => nameAsked? options = some name

def wasSetUp (calls : List Fields) (name : String) : Bool := (lastCall? calls name).isSome

/-- Loggers after calls that set them up, all of which succeed. Files may change in any way between
two calls, and other loggers may be made. -/
inductive Configured : List Fields → Registry → Prop
  | fresh : Configured [] .fresh
  | make {calls : List Fields} {registry : Registry} (name : String) (h : Configured calls registry) :
      Configured calls (registry.make (registryName name))
  | setUp {calls : List Fields} {registry after : Registry} {tree left : Files.Tree} {options : Fields}
      {name : String} (h : Configured calls registry)
      (hset : setUp registry tree options = .ok (name, after, left)) :
      Configured (calls ++ [options]) after

/-- A logger is as a call asks for it: one handler writes to the console, and one to a file if the
call gives one. -/
structure HandledBy (logger : Logger) (options : Fields) : Prop where
  one_console : logger.handlers.countP (·.target = .console) = 1
  one_file : logger.handlers.countP (·.target ≠ .console) = if givesFile options then 1 else 0
  level_asked : levelAsked options = .ok logger.level
  level_handled : ∀ handler ∈ logger.handlers, handler.level = logger.level
  ends : logger.passesOn = false

/-! ### What one call does -/

theorem isSome_of_fileOf {tree : Files.Tree} {v : Value} {file : Option Files.Path}
    (h : fileOf tree v = .ok file) : file.isSome = !v.isEmpty := by
  unfold fileOf at h
  split at h
  · next hempty =>
    obtain rfl := Except.ok.inj h
    simp [hempty]
  · next hempty =>
    split at h
    · obtain rfl := Except.ok.inj h
      simpa using hempty
    · cases h

/-- A call that succeeds carries out a plan of what its options ask for. -/
theorem plan_of_setUp {registry after : Registry} {tree left : Files.Tree} {options : Fields}
    {name : String} (h : setUp registry tree options = .ok (name, after, left)) :
    ∃ plan : Registry.Plan, nameAsked? options = some plan.name ∧
      levelAsked options = .ok plan.level ∧ plan.file.isSome = givesFile options ∧
      after = registry.setUp plan := by
  unfold setUp at h
  split at h
  · cases h
  obtain ⟨named, hname, h⟩ := bind_eq_ok.mp h
  obtain ⟨level, hlevel, h⟩ := bind_eq_ok.mp h
  extract_lets finish at h
  obtain ⟨layout, h⟩ : ∃ layout, finish layout = .ok (name, after, left) := by
    split at h
    · obtain ⟨layout, -, h⟩ := bind_eq_ok.mp h
      exact ⟨layout, h⟩
    · exact ⟨.document, h⟩
  obtain ⟨file, hfile, h⟩ := bind_eq_ok.mp h
  obtain ⟨made, -, h⟩ := bind_eq_ok.mp h
  extract_lets conclude at h
  obtain ⟨opened, h⟩ : ∃ opened, conclude opened = .ok (name, after, left) := by
    split at h
    · exact ⟨made, h⟩
    · obtain ⟨opened, -, h⟩ := bind_eq_ok.mp h
      exact ⟨opened, h⟩
  obtain ⟨rfl, hafter⟩ := Prod.mk.inj (Except.ok.inj h)
  refine ⟨⟨named, level, layout, file⟩, ?_, hlevel, isSome_of_fileOf hfile,
    (Prod.mk.inj hafter).1.symm⟩
  exact congrArg Except.toOption hname

/-- The handlers of a plan are as a call asks for them that the plan carries out. -/
theorem handledBy_plan {plan : Registry.Plan} {options : Fields}
    (hlevel : levelAsked options = .ok plan.level) (hfile : plan.file.isSome = givesFile options) :
    HandledBy ⟨plan.level, plan.handlers, false⟩ options := by
  obtain ⟨name, level, layout, file⟩ := plan
  cases file with
  | none =>
    refine ⟨rfl, ?_, hlevel, by simp [Registry.Plan.handlers], rfl⟩
    rw [← hfile]
    rfl
  | some path =>
    refine ⟨by simp [Registry.Plan.handlers], ?_, hlevel, by simp [Registry.Plan.handlers], rfl⟩
    rw [← hfile]
    simp [Registry.Plan.handlers]

theorem lastCall?_concat (calls : List Fields) (options : Fields) (name : String) :
    lastCall? (calls ++ [options]) name =
      if nameAsked? options = some name then some options else lastCall? calls name := by
  unfold lastCall?
  rw [List.reverse_concat, List.find?_cons]
  by_cases h : nameAsked? options = some name <;> simp [h]

theorem registryName_registryName (name : String) :
    registryName (registryName name) = registryName name := by
  by_cases h : name = topName
  · simp [registryName, h, topName]
  · simp [registryName, h]

/-- Names are asked for as the registry has them. -/
theorem registryName_of_nameAsked {options : Fields} {name : String}
    (h : nameAsked? options = some name) : registryName name = name := by
  unfold nameAsked? nameOf at h
  split at h
  · next given _ =>
    obtain rfl : registryName given = name := Option.some.inj h
    exact registryName_registryName given
  · split at h
    · obtain rfl : "" = name := Option.some.inj h
      rfl
    · cases h

namespace Registry

variable {registry : Registry} {name : String}

/-! ### The loggers after a call -/

def Idle (logger : Logger) : Prop := logger.handlers = [] ∧ logger.passesOn = true

theorem contains_iff : registry.contains name = true ↔ name ∈ registry.map Prod.fst :=
  isSome_field?_iff

theorem idle_fresh (name : String) : Idle (fresh.logger name) := by
  unfold logger fresh
  by_cases h : name = ""
  · subst h
    exact ⟨rfl, rfl⟩
  · have hnone : field? [("", ({ level := .warning } : Logger))] name = none := by
      simp [field?, Ne.symm h]
    rw [hnone]
    exact ⟨rfl, rfl⟩

/-- Making a logger changes no logger. -/
theorem logger_make (registry : Registry) (made name : String) :
    (registry.make made).logger name = registry.logger name := by
  unfold make
  split
  · rfl
  · unfold logger field?
    rw [List.find?_append]
    cases hfind : registry.find? (·.1 == name) with
    | some found => rfl
    | none => by_cases hname : made = name <;> simp [hname]

theorem contains_make (h : registry.contains name = true) (made : String) :
    (registry.make made).contains name = true := by
  unfold make
  split
  · exact h
  · rw [contains_iff, List.map_append]
    exact List.mem_append_left _ (contains_iff.mp h)

theorem field?_setUp_self (registry : Registry) (plan : Plan) :
    field? (registry.setUp plan) (registryName plan.name) = some ⟨plan.level, plan.handlers, false⟩ :=
  field?_setField_self ..

theorem field?_setUp_of_ne (registry : Registry) {plan : Plan} (h : name ≠ registryName plan.name) :
    field? (registry.setUp plan) name = field? registry name :=
  field?_setField_of_ne _ _ h

/-- What calls leave behind: a logger is as its last call asked for it, and idle without one. -/
structure Keeps (calls : List Fields) (registry : Registry) : Prop where
  called : ∀ name options, lastCall? calls name = some options →
    registry.contains name = true ∧ HandledBy (registry.logger name) options
  uncalled : ∀ name, lastCall? calls name = none → Idle (registry.logger name)

theorem Keeps.make {calls : List Fields} (h : Keeps calls registry) (made : String) :
    Keeps calls (registry.make made) where
  called name options hcall := by
    obtain ⟨hmade, hhandled⟩ := h.called name options hcall
    exact ⟨contains_make hmade made, by rwa [logger_make]⟩
  uncalled name hcall := by
    rw [logger_make]
    exact h.uncalled name hcall

theorem Keeps.setUp {calls : List Fields} (h : Keeps calls registry) {plan : Plan} {options : Fields}
    (hname : nameAsked? options = some plan.name) (hlevel : levelAsked options = .ok plan.level)
    (hfile : plan.file.isSome = givesFile options) :
    Keeps (calls ++ [options]) (registry.setUp plan) := by
  have hplanned := registryName_of_nameAsked hname
  have hself := registry.field?_setUp_self plan
  rw [hplanned] at hself
  -- only the logger of the call is another one afterwards
  have hother : ∀ n, plan.name ≠ n → field? (registry.setUp plan) n = field? registry n :=
    fun n hn => registry.field?_setUp_of_ne (by rw [hplanned]; exact hn.symm)
  constructor
  · intro n last hlast
    rw [lastCall?_concat, hname] at hlast
    unfold contains logger
    split at hlast
    · next heq =>
      obtain rfl := Option.some.inj heq
      obtain rfl := Option.some.inj hlast
      rw [hself]
      exact ⟨rfl, handledBy_plan hlevel hfile⟩
    · next hne =>
      rw [hother n fun heq => hne (congrArg some heq)]
      exact h.called n last hlast
  · intro n hlast
    rw [lastCall?_concat, hname] at hlast
    split at hlast
    · cases hlast
    · next hne =>
      unfold logger
      rw [hother n fun heq => hne (congrArg some heq)]
      exact h.uncalled n hlast

/-- Whatever calls were made, every logger is as its last call asked for it. -/
theorem keeps_of_configured {calls : List Fields} (h : Configured calls registry) :
    Keeps calls registry := by
  induction h with
  | fresh => exact ⟨fun _ _ h => (by cases h), fun name _ => idle_fresh name⟩
  | make name _ ih => exact ih.make _
  | setUp _ hset ih =>
    obtain ⟨plan, hname, hlevel, hfile, rfl⟩ := plan_of_setUp hset
    exact ih.setUp hname hlevel hfile

/-! ### The way of a record -/

def passedAlong (registry : Registry) : List String → List String
  | [] => []
  | name :: above =>
    name :: if (registry.logger name).passesOn then registry.passedAlong above else []

/-- The loggers to whose handlers a record of a logger comes. -/
def reached (registry : Registry) (name : String) : List String :=
  (registry.passedAlong (registry.climb name)).filter fun n => !(registry.logger n).handlers.isEmpty

theorem handlersAlong_eq (registry : Registry) (names : List String) :
    registry.handlersAlong names =
      (registry.passedAlong names).flatMap fun n => (registry.logger n).handlers := by
  induction names with
  | nil => rfl
  | cons name above ih =>
    unfold handlersAlong passedAlong
    rw [List.flatMap_cons]
    cases hpasses : (registry.logger name).passesOn <;> simp [hpasses, ih]

/-- The handlers that a record comes to are those of the loggers that it reaches. -/
theorem handlersFor_eq (registry : Registry) (name : String) :
    registry.handlersFor name =
      (registry.reached name).flatMap fun n => (registry.logger n).handlers := by
  unfold handlersFor reached
  rw [handlersAlong_eq, flatMap_filter_filled fun n => (registry.logger n).handlers]

/-- A record reaches the first logger on its way that has handlers, if that ends its climb and the
others are idle. -/
theorem filter_passedAlong {kind : String → Bool}
    (hkind : ∀ n, kind n = true →
      (registry.logger n).handlers ≠ [] ∧ (registry.logger n).passesOn = false)
    (hidle : ∀ n, kind n = false → Idle (registry.logger n)) (names : List String) :
    ((registry.passedAlong names).filter fun n => !(registry.logger n).handlers.isEmpty) =
      (names.find? kind).toList := by
  induction names with
  | nil => rfl
  | cons name above ih =>
    unfold passedAlong
    cases h : kind name with
    | true =>
      obtain ⟨hhandlers, hends⟩ := hkind name h
      simp [hends, hhandlers, h]
    | false =>
      obtain ⟨hhandlers, hpasses⟩ := hidle name h
      simp [hpasses, hhandlers, h, ih]

end Registry

/-! ### What a record is written to -/

/-- A handler writes a record to one file at most, and to none if it writes to the console. -/
theorem length_files_write_le (handler : Handler) (moment : Moment) (r : Record) :
    (handler.write moment r).files.length ≤ if handler.target ≠ .console then 1 else 0 := by
  unfold Handler.write
  split
  · exact Nat.zero_le _
  · split
    · exact Nat.zero_le _
    · exact Nat.zero_le _
    · next htarget =>
      rw [if_pos (by rw [htarget]; simp)]
      simp

theorem length_files_writes_le (handlers : List Handler) (moment : Moment) (r : Record)
    (written : Output) :
    ((handlers.map (·.write moment r)).foldl .append written).files.length ≤
      written.files.length + handlers.countP (·.target ≠ .console) := by
  induction handlers generalizing written with
  | nil => simp
  | cons handler handlers ih =>
    have hone := length_files_write_le handler moment r
    have hrest := ih (written.append (handler.write moment r))
    have hfiles : (written.append (handler.write moment r)).files.length =
        written.files.length + (handler.write moment r).files.length := List.length_append
    rw [List.map_cons, List.foldl_cons, List.countP_cons]
    simp only [decide_eq_true_eq]
    omega

/-! ### Every record is handled once -/

/-- What becomes of the records of a logger. -/
structure HandledOnce (calls : List Fields) (registry : Registry) (name : String) : Prop where
  reached_eq : registry.reached name = ((registry.climb name).find? (wasSetUp calls)).toList
  /-- Unless dots of the name follow each other, records reach the nearest logger at or above theirs
  that was set up. -/
  reached_iff_nearest : DotsApart name.toList →
    ∀ n, n ∈ registry.reached name ↔ Nearest (wasSetUp calls) name n
  handlers_eq : registry.handlersFor name =
    (registry.reached name).flatMap fun n => (registry.logger n).handlers
  handled : ∀ n ∈ registry.reached name, ∃ options, lastCall? calls n = some options ∧
    HandledBy (registry.logger n) options
  one_file : ∀ moment r, r.logger = name → (registry.write moment r).files.length ≤ 1

namespace Registry

variable {registry : Registry} {calls : List Fields}

/-- A logger that was set up has been made, and is as its last call asked for it. -/
theorem Keeps.of_wasSetUp {n : String} (h : Keeps calls registry) (hn : wasSetUp calls n = true) :
    registry.contains n = true ∧
      ∃ options, lastCall? calls n = some options ∧ HandledBy (registry.logger n) options := by
  obtain ⟨options, hlast⟩ := Option.isSome_iff_exists.mp hn
  obtain ⟨hmade, hhandled⟩ := h.called n options hlast
  exact ⟨hmade, options, hlast, hhandled⟩

theorem Keeps.reached_eq (h : Keeps calls registry) (name : String) :
    registry.reached name = ((registry.climb name).find? (wasSetUp calls)).toList := by
  refine filter_passedAlong (fun n hn => ?_) (fun n hn => ?_) _
  · obtain ⟨-, options, -, hhandled⟩ := h.of_wasSetUp hn
    refine ⟨fun hnone => ?_, hhandled.ends⟩
    have hone := hhandled.one_console
    rw [hnone] at hone
    simp at hone
  · exact h.uncalled n (Option.isNone_iff_eq_none.mp (Option.isSome_eq_false_iff.mp hn))

theorem Keeps.handled {name n : String} (h : Keeps calls registry) (hn : n ∈ registry.reached name) :
    ∃ options, lastCall? calls n = some options ∧ HandledBy (registry.logger n) options := by
  rw [h.reached_eq, Option.mem_toList] at hn
  exact (h.of_wasSetUp (List.find?_some hn)).2

theorem Keeps.countP_handlersFor_le (h : Keeps calls registry) (name : String) :
    (registry.handlersFor name).countP (·.target ≠ .console) ≤ 1 := by
  have hreached := h.reached_eq name
  rw [handlersFor_eq]
  cases hfind : (registry.climb name).find? (wasSetUp calls) with
  | none =>
    rw [hreached, hfind]
    exact Nat.zero_le _
  | some n =>
    rw [hfind, Option.toList_some] at hreached
    obtain ⟨options, -, hhandled⟩ := h.handled (hreached ▸ List.mem_singleton_self n)
    rw [hreached, List.flatMap_singleton, hhandled.one_file]
    split <;> decide

end Registry

/-- In whatever order loggers are set up, each record is handled once: by the handlers of the
nearest logger at or above its own that was set up, which are those that the last call for it asked
for. -/
theorem Configured.handled_once {calls : List Fields} {registry : Registry}
    (h : Configured calls registry) (name : String) : HandledOnce calls registry name := by
  have hkeeps := Registry.keeps_of_configured h
  refine ⟨hkeeps.reached_eq name, ?_, registry.handlersFor_eq name, fun n hn => hkeeps.handled hn, ?_⟩
  · intro hname n
    rw [hkeeps.reached_eq, Option.mem_toList]
    exact Registry.find?_climb_iff hname fun other hother => (hkeeps.of_wasSetUp hother).1
  · rintro moment r rfl
    unfold Registry.write
    split
    · have hhandlers := hkeeps.countP_handlersFor_le r.logger
      refine Nat.le_trans (length_files_writes_le _ moment r .empty) ?_
      split
      · simp [lastHandler, Output.empty]
      · simpa [Output.empty] using hhandlers
    · exact Nat.zero_le _

/-- The loggers after one more call, where there are no files yet. -/
theorem Configured.call {calls : List Fields} {registry after : Registry} {options : Fields}
    (h : Configured calls registry)
    (hafter : (Log.setUp registry ⟨[], []⟩ options).toOption.map (·.2.1) = some after) :
    Configured (calls ++ [options]) after := by
  cases hset : Log.setUp registry ⟨[], []⟩ options with
  | error fault =>
    rw [hset] at hafter
    cases hafter
  | ok found =>
    rw [hset] at hafter
    obtain rfl : found.2.1 = after := Option.some.inj hafter
    exact h.setUp hset

def filedCall : Fields := [("log_file", .str "logs/run.log")]

/-- A call for a logger below it whose lines are documents. -/
def documentCall : Fields :=
  [("name", .str (loggerName "core")), ("log_level", .str "debug"), ("json_format", .bool true)]

def plainCall : Fields := [("log_level", .int 30)]

def filed : Registry :=
  Registry.fresh.setUp ⟨rootName, .info, .pattern standardPattern, some ⟨.root, ["logs", "run.log"]⟩⟩

/-- The loggers after the second call, before which one below its own is made. -/
def layered : Registry :=
  (filed.make (registryName (loggerName "core.compiler"))).setUp
    ⟨loggerName "core", .debug, .document, none⟩

def relayered : Registry := layered.setUp ⟨rootName, .warning, .pattern standardPattern, none⟩

/-- Records of a logger reach the one above it that was set up after it was made. -/
theorem handled_once_relayered :
    Configured [filedCall, documentCall, plainCall] relayered ∧
      HandledOnce [filedCall, documentCall, plainCall] relayered (loggerName "core.compiler") ∧
      relayered.reached (loggerName "core.compiler") = [loggerName "core"] := by
  have hfirst : Configured ([] ++ [filedCall]) filed := Configured.fresh.call (by decide +kernel)
  have hsecond : Configured ([] ++ [filedCall] ++ [documentCall]) layered :=
    (hfirst.make (loggerName "core.compiler")).call (by decide +kernel)
  have hthird : Configured [filedCall, documentCall, plainCall] relayered :=
    hsecond.call (by decide +kernel)
  exact ⟨hthird, hthird.handled_once _, by decide +kernel⟩

end AuditHours.Log
