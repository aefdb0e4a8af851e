import Scriptorium.Json
import Scriptorium.ExecParams

/-!
# The arguments of the tools

`tools.rs` describes the arguments of `execute_shell` and `deliver` twice: by the
schemas that `ListTools` publishes and by the structs that `CallTool` decodes them
into.  The schemas leave open how an integer is spelled and how large it is; the
structs do not (`schemas_agree_iff`).
-/

namespace Scriptorium

open Json

structure DeliverArgs where
  path : String
  compress : Bool
  label : String

/-- `EXECUTE_SHELL_SCHEMA`. -/
def executeShellSchema : ObjectSchema where
  properties :=
    [("command", .string), ("timeout_seconds", .integer 1), ("env", .mapOf .string),
      ("heavy", .boolean)]
  required := ["command"]

/-- `DELIVER_SCHEMA`. -/
def deliverSchema : ObjectSchema where
  properties := [("path", .string), ("compress", .boolean), ("label", .string)]
  required := ["path"]

/-- The derived decoder of `ExecuteShellArgs`. -/
def decodeExecuteShellArgs (value : Value) : Option ExecuteShellArgs := do
  let field ← structFields ["command", "timeout_seconds", "env", "heavy"] value
  let command ← required deserializeString (field "command")
  let timeoutSeconds ← optional 0 deserializeU32 (field "timeout_seconds")
  let env ← optional [] deserializeMap (field "env")
  let heavy ← optional false deserializeBool (field "heavy")
  pure { command, timeoutSeconds, env, heavy }

/-- The derived decoder of `DeliverArgs`. -/
def decodeDeliverArgs (value : Value) : Option DeliverArgs := do
  let field ← structFields ["path", "compress", "label"] value
  let path ← required deserializeString (field "path")
  let compress ← optional false deserializeBool (field "compress")
  let label ← optional "" deserializeString (field "label")
  pure { path, compress, label }

/-! ### What is decoded -/

/-- The arguments are the values given, and the defaults of those left out. -/
structure ExecuteShellArgs.Carries (args : ExecuteShellArgs) (members : List (Text × Value)) :
    Prop where
  command : ∀ value, Given members "command" value → value = .string (Text.ofString args.command)
  timeoutSeconds : Carried members "timeout_seconds" 0
    (fun value (seconds : UInt32) => ∃ n, value = .number n ∧ n.value = (seconds.toNat : ℚ))
    args.timeoutSeconds
  env : Carried members "env" [] (fun value env => value = encodeMap env) args.env
  heavy : Carried members "heavy" false (fun value b => value = .bool b) args.heavy

structure DeliverArgs.Carries (args : DeliverArgs) (members : List (Text × Value)) : Prop where
  path : ∀ value, Given members "path" value → value = .string (Text.ofString args.path)
  compress : Carried members "compress" false (fun value b => value = .bool b) args.compress
  label : Carried members "label" "" (fun value s => value = .string (Text.ofString s)) args.label

section

variable {members : List (Text × Value)}

theorem names_proper_iff :
    members.all (fun m => m.1.toString?.isSome) = true ↔ ∀ m ∈ members, m.1.Proper := by
  rw [List.all_eq_true]
  exact forall₂_congr fun m _ => Text.toString?_isSome

theorem decode_executeShell_iff (h : executeShellSchema.Valid (.object members)) :
    (∃ args, decodeExecuteShellArgs (.object members) = some args ∧ args.Carries members) ↔
      executeShellSchema.Readable (.object members) := by
  obtain ⟨hunique, hproperties, hrequired⟩ := h
  have hcommand := reads_string.required hunique
    (hproperties ("command", .string) (by simp [executeShellSchema]))
    (hrequired "command" (by simp [executeShellSchema]))
  have htimeout := (reads_integer Int.one_pos).optional hunique
    (hproperties ("timeout_seconds", .integer 1) (by simp [executeShellSchema])) 0
  have henv := reads_mapOf.optional hunique
    (hproperties ("env", .mapOf .string) (by simp [executeShellSchema])) []
  have hheavy := reads_boolean.optional hunique
    (hproperties ("heavy", .boolean) (by simp [executeShellSchema])) false
  simp only [ObjectSchema.Readable, executeShellSchema, List.forall_mem_cons, List.not_mem_nil,
    false_implies, implies_true, and_true]
  rw [← hcommand.1, ← htimeout.1, ← henv.1, ← hheavy.1, ← names_proper_iff]
  simp only [decodeExecuteShellArgs, structFields_object _ hunique]
  constructor
  · rintro ⟨args, hdecode, -⟩
    obtain ⟨field, hfield, hdecode⟩ := Option.bind_eq_some_iff.mp hdecode
    split at hfield
    · rename_i hnames
      obtain rfl := Option.some.inj hfield
      obtain ⟨command, hc, hdecode⟩ := Option.bind_eq_some_iff.mp hdecode
      obtain ⟨timeout, ht, hdecode⟩ := Option.bind_eq_some_iff.mp hdecode
      obtain ⟨env, he, hdecode⟩ := Option.bind_eq_some_iff.mp hdecode
      obtain ⟨heavy, hh, -⟩ := Option.bind_eq_some_iff.mp hdecode
      exact ⟨hnames, ⟨command, hc⟩, ⟨timeout, ht⟩, ⟨env, he⟩, ⟨heavy, hh⟩⟩
    · cases hfield
  · rintro ⟨hnames, ⟨command, hc⟩, ⟨timeout, ht⟩, ⟨env, he⟩, ⟨heavy, hh⟩⟩
    refine ⟨⟨command, timeout, env, heavy⟩, ?_, ?_⟩
    · rw [if_pos hnames]
      simp only [Option.bind_eq_bind, Option.bind_some, hc, ht, he, hh]
      rfl
    · exact ⟨hcommand.2 _ hc, htimeout.2 _ ht, henv.2 _ he, hheavy.2 _ hh⟩

theorem decode_deliver_iff (h : deliverSchema.Valid (.object members)) :
    (∃ args, decodeDeliverArgs (.object members) = some args ∧ args.Carries members) ↔
      deliverSchema.Readable (.object members) := by
  obtain ⟨hunique, hproperties, hrequired⟩ := h
  have hpath := reads_string.required hunique
    (hproperties ("path", .string) (by simp [deliverSchema]))
    (hrequired "path" (by simp [deliverSchema]))
  have hcompress := reads_boolean.optional hunique
    (hproperties ("compress", .boolean) (by simp [deliverSchema])) false
  have hlabel := reads_string.optional hunique
    (hproperties ("label", .string) (by simp [deliverSchema])) ""
  simp only [ObjectSchema.Readable, deliverSchema, List.forall_mem_cons, List.not_mem_nil,
    false_implies, implies_true, and_true]
  rw [← hpath.1, ← hcompress.1, ← hlabel.1, ← names_proper_iff]
  simp only [decodeDeliverArgs, structFields_object _ hunique]
  constructor
  · rintro ⟨args, hdecode, -⟩
    obtain ⟨field, hfield, hdecode⟩ := Option.bind_eq_some_iff.mp hdecode
    split at hfield
    · rename_i hnames
      obtain rfl := Option.some.inj hfield
      obtain ⟨path, hp, hdecode⟩ := Option.bind_eq_some_iff.mp hdecode
      obtain ⟨compress, hc, hdecode⟩ := Option.bind_eq_some_iff.mp hdecode
      obtain ⟨label, hl, -⟩ := Option.bind_eq_some_iff.mp hdecode
      exact ⟨hnames, ⟨path, hp⟩, ⟨compress, hc⟩, ⟨label, hl⟩⟩
    · cases hfield
  · rintro ⟨hnames, ⟨path, hp⟩, ⟨compress, hc⟩, ⟨label, hl⟩⟩
    refine ⟨⟨path, compress, label⟩, ?_, ?_⟩
    · rw [if_pos hnames]
      simp only [Option.bind_eq_bind, Option.bind_some, hp, hc, hl]
      rfl
    · exact ⟨hpath.2 _ hp, hcompress.2 _ hc, hlabel.2 _ hl⟩

end

/-- **Schemas and decoders.**  Of the values that a published schema admits, `CallTool`
    decodes exactly those that a reader with 32-bit integers can take, and hands on
    the values given and the defaults of the others: names, declared strings and the
    entries of `env` without lone surrogates, and a timeout spelled without fraction
    and exponent and below 2^32. -/
theorem schemas_agree_iff (value : Value) :
    (executeShellSchema.Valid value →
      ((∃ members args, value = .object members ∧ decodeExecuteShellArgs value = some args ∧
        args.Carries members) ↔ executeShellSchema.Readable value)) ∧
    (deliverSchema.Valid value →
      ((∃ members args, value = .object members ∧ decodeDeliverArgs value = some args ∧
        args.Carries members) ↔ deliverSchema.Readable value)) := by
  constructor
  · intro hvalid
    cases value with
    | object members =>
      rw [← decode_executeShell_iff hvalid]
      constructor
      · rintro ⟨_, args, ⟨rfl⟩, hdecode⟩
        exact ⟨args, hdecode⟩
      · rintro ⟨args, hdecode⟩
        exact ⟨members, args, rfl, hdecode⟩
    | _ => exact hvalid.elim
  · intro hvalid
    cases value with
    | object members =>
      rw [← decode_deliver_iff hvalid]
      constructor
      · rintro ⟨_, args, ⟨rfl⟩, hdecode⟩
        exact ⟨args, hdecode⟩
      · rintro ⟨args, hdecode⟩
        exact ⟨members, args, rfl, hdecode⟩
    | _ => exact hvalid.elim

/-- The arguments of a shell call with a timeout. -/
def timedCall (timeout : Number) : Value :=
  .object [(Text.ofString "command", .string (Text.ofString "ls")),
    (Text.ofString "timeout_seconds", .number timeout)]

theorem timedCall_valid {timeout : Number} (k : Nat) (h : timeout.value = k) (hk : 1 ≤ k) :
    executeShellSchema.Valid (timedCall timeout) := by
  have hinteger : (Schema.integer 1).Valid (.number timeout) := by
    refine ⟨⟨k, by simpa using h⟩, ?_⟩
    rw [h]
    exact_mod_cast hk
  refine ⟨?_, ?_, ?_⟩
  · simp [UniqueNames]
  · simpa [executeShellSchema, Given, Schema.Valid] using hinteger
  · simp [executeShellSchema, Given]

/-- A timeout of two minutes is decoded. -/
theorem timedCall_decoded : ∃ members args, timedCall ⟨false, 120, [], none⟩ = .object members ∧
    decodeExecuteShellArgs (timedCall ⟨false, 120, [], none⟩) = some args ∧
      args.Carries members := by
  have hvalid : executeShellSchema.Valid (timedCall ⟨false, 120, [], none⟩) :=
    timedCall_valid 120 (by simp [Number.value, Number.mantissa]) (by decide)
  refine ((schemas_agree_iff _).1 hvalid).mpr ⟨?_, ?_⟩
  · simp
  · simp [executeShellSchema, Given, Schema.Readable, Number.Plain]

/-- Valid timeouts that are refused: one second written `1.0`, a hundred written `1e2`,
    and 2^32 of them. -/
theorem valid_timeouts_refused :
    (executeShellSchema.Valid (timedCall ⟨false, 1, [0], none⟩) ∧
      decodeExecuteShellArgs (timedCall ⟨false, 1, [0], none⟩) = none) ∧
    (executeShellSchema.Valid (timedCall ⟨false, 1, [], some 2⟩) ∧
      decodeExecuteShellArgs (timedCall ⟨false, 1, [], some 2⟩) = none) ∧
    executeShellSchema.Valid (timedCall ⟨false, 4294967296, [], none⟩) ∧
      decodeExecuteShellArgs (timedCall ⟨false, 4294967296, [], none⟩) = none := by
  refine ⟨⟨timedCall_valid 1 ?_ ?_, rfl⟩, ⟨timedCall_valid 100 ?_ ?_, rfl⟩,
    timedCall_valid 4294967296 ?_ ?_, rfl⟩
  · norm_num [Number.value, Number.mantissa]
  · decide
  · norm_num [Number.value, Number.mantissa]
  · decide
  · norm_num [Number.value, Number.mantissa]
  · decide

end Scriptorium
