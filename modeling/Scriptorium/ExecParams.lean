import Scriptorium.Workspace
import Mathlib.Algebra.Order.Group.Nat
import Mathlib.Data.Set.Defs

/-!
# What a container is created with

The configuration and its validation, the defaults of a request
(`build_exec_params`), and the body of the create request (`create_container`).

`caps_bind_iff` says which requests get a container whose memory, CPU time,
processes and `/tmp` are all limited.
-/

namespace Scriptorium

open Posix Effects

/-! ### The configuration -/

structure SandboxConfig where
  defaultImage : String
  defaultTimeoutSeconds : UInt32
  defaultCpuMillis : UInt32
  defaultMemoryBytes : UInt64
  defaultPids : UInt32
  defaultTmpfsBytes : UInt64
  heavyCpuMillis : UInt32
  heavyMemoryBytes : UInt64
  heavyPids : UInt32
  heavyTmpfsBytes : UInt64
  agentUid : Nat
  agentGid : Nat
  workspaceMount : String

/-- The parts of the configuration that are validated. -/
structure Config where
  sandbox : SandboxConfig
  workspaceRoot : String
  tosEndpoint : String
  tosBucket : String

def Config.validate (cfg : Config) : Except Error Unit :=
  if isAbsolute cfg.workspaceRoot = false then
    .error (.other ("workspace.root must be an absolute path, got " ++ cfg.workspaceRoot))
  else if cfg.sandbox.agentUid = 0 then
    .error (.other ("sandbox.agent_uid must be non-zero — running as root inside the sandbox " ++
      "defeats isolation"))
  else if cfg.sandbox.defaultImage.isEmpty then
    .error (.other "sandbox.default_image must not be empty")
  else if cfg.tosEndpoint.isEmpty || cfg.tosBucket.isEmpty then
    .error (.other "tos.endpoint and tos.bucket are required")
  else .ok ()

/-! ### Requests -/

structure ResourceLimits where
  cpuMillis : UInt32
  memoryBytes : UInt64
  pids : UInt32
  tmpfsBytes : UInt64
deriving DecidableEq, Repr

structure ExecRequest where
  workspaceId : String
  tenantId : String
  command : String
  timeoutSeconds : UInt32
  env : List (String × String)
  image : String
  limits : Option ResourceLimits

/-- The arguments of the tool `execute_shell`. -/
structure ExecuteShellArgs where
  command : String
  timeoutSeconds : UInt32
  env : List (String × String)
  heavy : Bool

/-- `CallTool(execute_shell)`: a heavy call asks for the heavy tier. -/
def executeShellRequest (sandbox : SandboxConfig) (workspaceId tenantId : String)
    (timeoutSeconds : UInt32) (args : ExecuteShellArgs) : ExecRequest where
  workspaceId := workspaceId
  tenantId := tenantId
  command := args.command
  timeoutSeconds := if timeoutSeconds > 0 then timeoutSeconds else args.timeoutSeconds
  env := args.env
  image := ""
  limits :=
    if args.heavy then
      some ⟨sandbox.heavyCpuMillis, sandbox.heavyMemoryBytes, sandbox.heavyPids,
        sandbox.heavyTmpfsBytes⟩
    else none

/-- The calls that create a container. -/
inductive Execution where
  | exec (req : ExecRequest)
  | executeShell (workspaceId tenantId : String) (timeoutSeconds : UInt32)
    (args : ExecuteShellArgs)

def Execution.request (sandbox : SandboxConfig) : Execution → ExecRequest
  | .exec req => req
  | .executeShell workspaceId tenantId timeoutSeconds args =>
    executeShellRequest sandbox workspaceId tenantId timeoutSeconds args

/-! ### Parameters -/

structure ExecParams where
  workspaceId : String
  tenantId : String
  command : String
  timeoutSeconds : UInt32
  env : List (String × String)
  image : String
  hostHomeDir : PathBuf
  cpuMillis : UInt32
  memoryBytes : UInt64
  pids : UInt32
  tmpfsBytes : UInt64

/-- Limits left out are zeros. -/
def ExecRequest.asked (req : ExecRequest) : ResourceLimits :=
  req.limits.getD ⟨0, 0, 0, 0⟩

/-- A request with its defaults; zeros stand for the configured ones. -/
def execParams (sandbox : SandboxConfig) (req : ExecRequest) (hostHomeDir : PathBuf) :
    ExecParams where
  workspaceId := req.workspaceId
  tenantId := req.tenantId
  command := req.command
  timeoutSeconds :=
    if req.timeoutSeconds = 0 then sandbox.defaultTimeoutSeconds else req.timeoutSeconds
  env := req.env
  image := if req.image.isEmpty then sandbox.defaultImage else req.image
  hostHomeDir := hostHomeDir
  cpuMillis := if req.asked.cpuMillis = 0 then sandbox.defaultCpuMillis else req.asked.cpuMillis
  memoryBytes :=
    if req.asked.memoryBytes = 0 then sandbox.defaultMemoryBytes else req.asked.memoryBytes
  pids := if req.asked.pids = 0 then sandbox.defaultPids else req.asked.pids
  tmpfsBytes := if req.asked.tmpfsBytes = 0 then sandbox.defaultTmpfsBytes else req.asked.tmpfsBytes

def buildExecParams (cfg : Config) (req : ExecRequest) : Fs Error ExecParams := do
  let home ← ensureHome cfg.workspaceRoot req.workspaceId cfg.sandbox.agentUid cfg.sandbox.agentGid
  pure (execParams cfg.sandbox req home)

/-! ### The create request -/

/-- `i64::MAX`. -/
def i64Max : Nat := 2 ^ 63 - 1

/-- `i64` arithmetic wraps. -/
def wrap64 (n : Int) : Int := n.bmod (2 ^ 64)

/-- A directory of the host and where the container sees it, written `host:container`. -/
structure Bind where
  host : PathBuf
  container : String

structure HostConfig where
  autoRemove : Bool
  binds : List Bind
  memory : Int
  nanoCpus : Int
  pidsLimit : Int
  readonlyRootfs : Bool
  tmpfs : List (String × String)
  networkMode : String

/-- The host part of `create_container`. -/
def hostConfig (sandbox : SandboxConfig) (req : ExecParams) : HostConfig where
  autoRemove := true
  binds := [⟨req.hostHomeDir, sandbox.workspaceMount⟩]
  -- `i64::try_from(..).unwrap_or(i64::MAX)`
  memory := if req.memoryBytes.toNat ≤ i64Max then req.memoryBytes.toNat else i64Max
  nanoCpus := wrap64 (req.cpuMillis.toNat * 1000000)
  pidsLimit := req.pids.toNat
  readonlyRootfs := true
  tmpfs := [("/tmp", "rw,size=" ++ toString req.tmpfsBytes.toNat)]
  networkMode := "bridge"

/-! ### Resource caps -/

/-- Ceilings on the four resources. -/
structure Ceilings where
  memory : Int
  nanoCpus : Int
  pidsLimit : Int
  tmpfs : Int

/-- Each ceiling is below the value a conversion saturates at. -/
def Ceilings.Proper (c : Ceilings) : Prop :=
  c.memory < i64Max ∧ c.nanoCpus < i64Max ∧ c.pidsLimit < i64Max ∧ c.tmpfs < i64Max

/-- Every resource is limited (0 is no limit to the daemon), and by its ceiling. -/
structure HostConfig.Within (h : HostConfig) (c : Ceilings) : Prop where
  memory : 0 < h.memory ∧ h.memory ≤ c.memory
  nanoCpus : 0 < h.nanoCpus ∧ h.nanoCpus ≤ c.nanoCpus
  pidsLimit : 0 < h.pidsLimit ∧ h.pidsLimit ≤ c.pidsLimit
  tmpfs : ∃ size : Nat, h.tmpfs = [("/tmp", "rw,size=" ++ toString size)] ∧ 0 < size ∧
    (size : Int) ≤ c.tmpfs

/-- What a request asks for, with the defaults behind it, comes to limits: no quantity
    is zero in both, and the two byte counts stay below `i64::MAX`. -/
structure Capped (sandbox : SandboxConfig) (asked : ResourceLimits) : Prop where
  cpu : asked.cpuMillis ≠ 0 ∨ sandbox.defaultCpuMillis ≠ 0
  pids : asked.pids ≠ 0 ∨ sandbox.defaultPids ≠ 0
  memory : asked.memoryBytes ≠ 0 ∨ sandbox.defaultMemoryBytes ≠ 0
  memory_lt : asked.memoryBytes.toNat < i64Max ∧
    (asked.memoryBytes = 0 → sandbox.defaultMemoryBytes.toNat < i64Max)
  tmpfs : asked.tmpfsBytes ≠ 0 ∨ sandbox.defaultTmpfsBytes ≠ 0
  tmpfs_lt : asked.tmpfsBytes.toNat < i64Max ∧
    (asked.tmpfsBytes = 0 → sandbox.defaultTmpfsBytes.toNat < i64Max)

/-- The widest ceilings below saturation. -/
def widest : Ceilings := ⟨i64Max - 1, i64Max - 1, i64Max - 1, i64Max - 1⟩

theorem toString_nat_injective {m n : Nat} (h : toString m = toString n) : m = n := by
  have hdigits : Nat.toDigits 10 m = Nat.toDigits 10 n := by
    rw [← Nat.toList_repr, ← Nat.toList_repr]
    exact congrArg String.toList h
  calc m = Nat.ofDigitChars 10 (Nat.toDigits 10 m) 0 := Nat.ofDigitChars_ten_toDigits.symm
    _ = Nat.ofDigitChars 10 (Nat.toDigits 10 n) 0 := by rw [hdigits]
    _ = n := Nat.ofDigitChars_ten_toDigits

/-- The product of the CPU quota does not overflow. -/
theorem wrap64_cpu (cpuMillis : UInt32) :
    wrap64 (cpuMillis.toNat * 1000000) = cpuMillis.toNat * 1000000 := by
  have hlt := cpuMillis.toNat_lt
  unfold wrap64
  rw [Int.bmod_eq_of_le] <;> omega

section Quantities

theorem pos_of_default32 (asked fallback : UInt32) :
    0 < (if asked = 0 then fallback else asked).toNat ↔ asked ≠ 0 ∨ fallback ≠ 0 := by
  split
  · rename_i hzero
    simp [hzero, Nat.pos_iff_ne_zero, ← UInt32.toNat_inj]
  · rename_i hasked
    refine iff_of_true (Nat.pos_of_ne_zero fun h => hasked ?_) (Or.inl hasked)
    exact UInt32.toNat_inj.mp h

theorem pos_of_default64 (asked fallback : UInt64) :
    0 < (if asked = 0 then fallback else asked).toNat ↔ asked ≠ 0 ∨ fallback ≠ 0 := by
  split
  · rename_i hzero
    simp [hzero, Nat.pos_iff_ne_zero, ← UInt64.toNat_inj]
  · rename_i hasked
    refine iff_of_true (Nat.pos_of_ne_zero fun h => hasked ?_) (Or.inl hasked)
    exact UInt64.toNat_inj.mp h

theorem lt_of_default (asked fallback : UInt64) {bound : Nat} (hbound : 0 < bound) :
    (if asked = 0 then fallback else asked).toNat < bound ↔
      asked.toNat < bound ∧ (asked = 0 → fallback.toNat < bound) := by
  split
  · rename_i hzero
    simp [hzero, hbound]
  · rename_i hasked
    simp [hasked]

end Quantities

variable (sandbox : SandboxConfig) (req : ExecRequest) (home : PathBuf)

/-- A request that comes to limits is within the widest ceilings. -/
theorem within_of_capped (h : Capped sandbox req.asked) :
    (hostConfig sandbox (execParams sandbox req home)).Within widest := by
  have hmemory := (lt_of_default _ _ (by decide)).mpr h.memory_lt
  have htmpfs := (lt_of_default _ _ (by decide)).mpr h.tmpfs_lt
  have hcpu := (execParams sandbox req home).cpuMillis.toNat_lt
  have hpids := (execParams sandbox req home).pids.toNat_lt
  have hpos := (pos_of_default32 _ _).mpr h.cpu
  have hvalue : (hostConfig sandbox (execParams sandbox req home)).memory =
      (execParams sandbox req home).memoryBytes.toNat := if_pos (Nat.le_of_lt hmemory)
  refine ⟨⟨?_, ?_⟩, ⟨?_, ?_⟩, ⟨?_, ?_⟩, _, rfl, ?_, ?_⟩
  · rw [hvalue]
    exact Int.natCast_pos.mpr ((pos_of_default64 _ _).mpr h.memory)
  · rw [hvalue, widest]
    exact Int.le_sub_one_of_lt (Int.ofNat_lt.mpr hmemory)
  · simp only [hostConfig, wrap64_cpu, execParams]
    omega
  · simp only [hostConfig, wrap64_cpu, widest, i64Max]
    omega
  · exact Int.natCast_pos.mpr ((pos_of_default32 _ _).mpr h.pids)
  · simp only [hostConfig, widest, i64Max]
    omega
  · exact (pos_of_default64 _ _).mpr h.tmpfs
  · simp only [execParams, widest]
    omega

/-- A request within proper ceilings comes to limits. -/
theorem capped_of_within {ceiling : Ceilings} (hproper : ceiling.Proper)
    (h : (hostConfig sandbox (execParams sandbox req home)).Within ceiling) :
    Capped sandbox req.asked := by
  obtain ⟨hmemory, hcpu, hpids, size, htext, hsize, hle⟩ := h
  obtain ⟨hmemory', -, -, htmpfs'⟩ := hproper
  -- the size in the text is the size in the parameters
  have hsame : (execParams sandbox req home).tmpfsBytes.toNat = size := by
    apply toString_nat_injective
    have htext' := congrArg (List.map Prod.snd) htext
    simp only [hostConfig, List.map_cons, List.map_nil, List.cons.injEq, and_true] at htext'
    exact (String.append_right_inj _).mp htext'
  have hbelow : (execParams sandbox req home).memoryBytes.toNat < i64Max := by
    have hlt := Int.lt_of_le_of_lt hmemory.2 hmemory'
    simp only [hostConfig] at hlt
    split at hlt
    · exact Int.ofNat_lt.mp hlt
    · exact absurd hlt (Int.lt_irrefl _)
  have hpositive : 0 < (execParams sandbox req home).memoryBytes.toNat := by
    have hpos := hmemory.1
    rw [hostConfig, if_pos (Nat.le_of_lt hbelow)] at hpos
    exact Int.natCast_pos.mp hpos
  constructor
  · apply (pos_of_default32 _ _).mp
    have hpos := hcpu.1
    simp only [hostConfig, wrap64_cpu] at hpos
    change 0 < (execParams sandbox req home).cpuMillis.toNat
    omega
  · exact (pos_of_default32 _ _).mp (Int.natCast_pos.mp hpids.1)
  · exact (pos_of_default64 _ _).mp hpositive
  · exact (lt_of_default _ _ (by decide)).mp hbelow
  · apply (pos_of_default64 _ _).mp
    change 0 < (execParams sandbox req home).tmpfsBytes.toNat
    omega
  · apply (lt_of_default _ _ (by decide)).mp
    change (execParams sandbox req home).tmpfsBytes.toNat < i64Max
    omega

/-- **Resource caps.**  For every configuration and every set of executions, the
    containers created for them stay within ceilings that depend on the configuration
    alone, and below saturation, exactly when each execution asks for, or is given by
    default, limits; the CPU quota never overflows. -/
theorem caps_bind_iff (sandbox : SandboxConfig) (executions : Set Execution) :
    ((∃ ceiling : Ceilings, ceiling.Proper ∧ ∀ x ∈ executions, ∀ home,
        (hostConfig sandbox (execParams sandbox (x.request sandbox) home)).Within ceiling) ↔
      ∀ x ∈ executions, Capped sandbox (x.request sandbox).asked) ∧
    ∀ params, (hostConfig sandbox params).nanoCpus = params.cpuMillis.toNat * 1000000 := by
  constructor
  · constructor
    · rintro ⟨ceiling, hproper, hwithin⟩ x hx
      exact capped_of_within sandbox _ [] hproper (hwithin x hx [])
    · intro hcapped
      refine ⟨widest, ?_, fun x hx home => within_of_capped sandbox _ home (hcapped x hx)⟩
      have hlt : (i64Max : Int) - 1 < i64Max := by omega
      exact ⟨hlt, hlt, hlt, hlt⟩
  · intro params
    rw [hostConfig, wrap64_cpu]

/-- A configuration with the defaults of the program. -/
def defaultSandbox : SandboxConfig where
  defaultImage := "agent:latest"
  defaultTimeoutSeconds := 300
  defaultCpuMillis := 2000
  defaultMemoryBytes := 2147483648
  defaultPids := 256
  defaultTmpfsBytes := 1073741824
  heavyCpuMillis := 4000
  heavyMemoryBytes := 8589934592
  heavyPids := 512
  heavyTmpfsBytes := 2147483648
  agentUid := 1000
  agentGid := 1000
  workspaceMount := "/home/agent"

def defaultConfig : Config := ⟨defaultSandbox, "/data", "https://tos.example", "artifacts"⟩

/-- A request for the largest amount of memory. -/
def greedyRequest : ExecRequest :=
  ⟨"w1", "t", "true", 0, [], "", some ⟨0, 18446744073709551615, 0, 0⟩⟩

/-- The default configuration is accepted, and no ceiling holds the greedy request. -/
theorem no_ceiling_for_greedy :
    defaultConfig.validate = .ok () ∧
      ¬ ∃ ceiling : Ceilings, ceiling.Proper ∧ ∀ x : Execution, ∀ home,
        (hostConfig defaultSandbox
          (execParams defaultSandbox (x.request defaultSandbox) home)).Within ceiling := by
  refine ⟨by decide, ?_⟩
  rintro ⟨ceiling, hproper, hwithin⟩
  have hcapped := capped_of_within defaultSandbox greedyRequest [] hproper
    (hwithin (.exec greedyRequest) [])
  exact absurd hcapped.memory_lt.1 (by decide)

end Scriptorium
