import Scriptorium.Oss
import Scriptorium.CivilDate

/-!
# Object keys

A key is `{prefix}{tenant}/{workspace}/{day}/{nonce}-{basename}`.  Sanitized parts
hold no slash and the nonce has a fixed length, so a key can be taken apart again
(`buildKey_inj`): two uploads share a key exactly when their sanitized names agree
and their clock readings agree in the day and in 32 bits.  `keys_distinct_iff` draws
the conclusion for runs of uploads.
-/

namespace Scriptorium

/-! ### Digits -/

/-- The value of a digit, of which those above 9 are letters. -/
def digitValue (c : Char) : Nat := if c.toNat < 58 then c.toNat - 48 else c.toNat - 87

def valueOf (base : Nat) (digits : List Char) : Nat :=
  digits.foldl (fun value c => base * value + digitValue c) 0

theorem digitValue_digitChar : ∀ n < 16, digitValue (Nat.digitChar n) = n := by decide

theorem valueOf_toDigits {base : Nat} (hbase : 1 < base) (hle : base ≤ 16) (n : Nat) :
    valueOf base (Nat.toDigits base n) = n := by
  induction n using Nat.strongRecOn with
  | ind n ih =>
    rw [Nat.toDigits_eq_if hbase]
    split
    · rename_i hlt
      simp [valueOf, digitValue_digitChar n (by omega)]
    · rename_i hge
      have hdiv : n / base < n := Nat.div_lt_self (by omega) hbase
      have hmod : n % base < 16 := Nat.lt_of_lt_of_le (Nat.mod_lt n (by omega)) hle
      have hrest := ih (n / base) hdiv
      unfold valueOf at hrest ⊢
      rw [List.foldl_append, hrest, List.foldl_cons, List.foldl_nil, digitValue_digitChar _ hmod]
      exact Nat.div_add_mod n base

/-- Leading zeros do not count. -/
theorem valueOf_padLeft (base width : Nat) (digits : List Char) :
    valueOf base (padLeft width digits) = valueOf base digits := by
  have hzeros : ∀ k, (List.replicate k '0').foldl (fun value c => base * value + digitValue c) 0 =
      0 := by
    intro k
    induction k with
    | zero => rfl
    | succ k ih =>
      rw [List.replicate_succ, List.foldl_cons]
      exact ih
  rw [valueOf, padLeft, List.foldl_append, hzeros, valueOf]

theorem padLeft_toDigits_inj {base width m n : Nat} (hbase : 1 < base) (hle : base ≤ 16)
    (h : padLeft width (Nat.toDigits base m) = padLeft width (Nat.toDigits base n)) : m = n := by
  rw [← valueOf_toDigits hbase hle m, ← valueOf_padLeft base width, h, valueOf_padLeft,
    valueOf_toDigits hbase hle]

theorem isDigit_of_mem_padLeft {width n : Nat} {c : Char}
    (h : c ∈ padLeft width (Nat.toDigits 10 n)) : c.isDigit := by
  rcases List.mem_append.mp h with h | h
  · rw [List.eq_of_mem_replicate h]
    decide
  · exact Nat.isDigit_of_mem_toDigits (by decide) (by decide) h

/-- A nonce has eight digits. -/
theorem length_nonce {n : Nat} (h : n < 2 ^ 32) :
    (padLeft 8 (Nat.toDigits 16 n)).length = 8 := by
  have hlen : (Nat.toDigits 16 n).length ≤ 8 :=
    (Nat.length_toDigits_le_iff (by decide) (by decide)).mpr h
  rw [padLeft, List.length_append, List.length_replicate]
  omega

/-! ### Taking texts apart -/

/-- Where a separator first stands, a text can be cut in one way only. -/
theorem cut_at_first {α : Type} {sep : α} {a b x y : List α} (ha : sep ∉ a) (hb : sep ∉ b)
    (h : a ++ sep :: x = b ++ sep :: y) : a = b ∧ x = y := by
  induction a generalizing b with
  | nil =>
    cases b with
    | nil => exact ⟨rfl, (List.cons.inj h).2⟩
    | cons c b =>
      obtain rfl := (List.cons.inj h).1
      exact absurd List.mem_cons_self hb
  | cons c a ih =>
    cases b with
    | nil =>
      obtain rfl := (List.cons.inj h).1
      exact absurd List.mem_cons_self ha
    | cons d b =>
      obtain ⟨rfl, hrest⟩ := List.cons.inj h
      rw [List.mem_cons, not_or] at ha hb
      obtain ⟨rfl, rfl⟩ := ih ha.2 hb.2 hrest
      exact ⟨rfl, rfl⟩

theorem slash_not_mem_sanitizeSegment (s : String) : '/' ∉ (sanitizeSegment s).toList := by
  unfold sanitizeSegment
  split
  · decide
  · intro h
    rw [String.toList_ofList, List.mem_map] at h
    obtain ⟨c, -, hc⟩ := h
    split at hc
    · rename_i hkey
      rw [hc] at hkey
      exact absurd hkey (by decide)
    · exact absurd hc (by decide)

/-! ### The day in a key -/

/-- The day of a reading of the clock in seconds, counted from 1970. -/
def dayOf (secs : Nat) : Nat := secs / 86400

theorem ymdFromUnix_eq (secs : Nat) :
    ymdFromUnix secs = decimal 4 (Civil.ofDays (dayOf secs)).year ++ "-" ++
      decimal 2 (Civil.ofDays (dayOf secs)).month ++ "-" ++
      decimal 2 (Civil.ofDays (dayOf secs)).day := by
  have hday : ((dayOf secs : Nat) : Int) = secs / 86400 := by
    unfold dayOf
    omega
  simp only [ymdFromUnix, Civil.ofDays, hday]

/-- The three fields of a date, as they are written. -/
theorem toList_ymdFromUnix (secs : Nat) : ∃ year month day : Nat,
    Civil.ofDays (dayOf secs) = ⟨year, month, day⟩ ∧
      (ymdFromUnix secs).toList = padLeft 4 (Nat.toDigits 10 year) ++ '-' ::
        (padLeft 2 (Nat.toDigits 10 month) ++ '-' :: padLeft 2 (Nat.toDigits 10 day)) := by
  have hnonneg := Civil.ofDays_nonneg (Int.natCast_nonneg (dayOf secs))
  have htext := ymdFromUnix_eq secs
  -- from here on only the fields of the date matter
  generalize Civil.ofDays (dayOf secs) = date at hnonneg htext ⊢
  obtain ⟨year, month, day⟩ := date
  obtain ⟨hyear, hmonth, hday⟩ := hnonneg
  obtain ⟨year, rfl⟩ := Int.eq_ofNat_of_zero_le hyear
  obtain ⟨month, rfl⟩ := Int.eq_ofNat_of_zero_le hmonth
  obtain ⟨day, rfl⟩ := Int.eq_ofNat_of_zero_le hday
  refine ⟨year, month, day, rfl, ?_⟩
  have hdecimal : ∀ (width n : Nat),
      (decimal width n).toList = padLeft width (Nat.toDigits 10 n) := by
    intro width n
    rw [decimal, if_neg (by omega), String.toList_ofList, Int.natAbs_natCast]
  rw [htext]
  simp [String.toList_append, hdecimal]

theorem ymdFromUnix_inj {secs secs' : Nat} (h : ymdFromUnix secs = ymdFromUnix secs') :
    dayOf secs = dayOf secs' := by
  obtain ⟨year, month, day, hdate, htext⟩ := toList_ymdFromUnix secs
  obtain ⟨year', month', day', hdate', htext'⟩ := toList_ymdFromUnix secs'
  have hdash : ∀ width n, '-' ∉ padLeft width (Nat.toDigits 10 n) := by
    intro width n hmem
    exact absurd (isDigit_of_mem_padLeft hmem) (by decide)
  rw [h, htext'] at htext
  obtain ⟨hyear, hrest⟩ := cut_at_first (hdash _ _) (hdash _ _) htext
  obtain ⟨hmonth, hday⟩ := cut_at_first (hdash _ _) (hdash _ _) hrest
  have hsame : Civil.ofDays (dayOf secs) = Civil.ofDays (dayOf secs') := by
    rw [hdate, hdate', padLeft_toDigits_inj (by decide) (by decide) hyear,
      padLeft_toDigits_inj (by decide) (by decide) hmonth,
      padLeft_toDigits_inj (by decide) (by decide) hday]
  exact Int.ofNat_inj.mp (Civil.ofDays_injective (by omega) (by omega) hsame)

theorem ymdFromUnix_eq_iff {secs secs' : Nat} :
    ymdFromUnix secs = ymdFromUnix secs' ↔ dayOf secs = dayOf secs' := by
  constructor
  · exact ymdFromUnix_inj
  · intro h
    rw [ymdFromUnix_eq, ymdFromUnix_eq, h]

theorem slash_not_mem_ymdFromUnix (secs : Nat) : '/' ∉ (ymdFromUnix secs).toList := by
  obtain ⟨year, month, day, -, htext⟩ := toList_ymdFromUnix secs
  have hslash : ∀ width n, '/' ∉ padLeft width (Nat.toDigits 10 n) := by
    intro width n hmem
    exact absurd (isDigit_of_mem_padLeft hmem) (by decide)
  rw [htext]
  simp [hslash]

/-! ### Keys -/

/-- The part of a clock reading that goes into the nonce. -/
def nonceOf (nanos : Nat) : Nat := nanos % 2 ^ 32

theorem nonceOf_lt (nanos : Nat) : nonceOf nanos < 2 ^ 32 := by
  unfold nonceOf
  omega

theorem mod_mod_eq_nonceOf (nanos : Nat) : nanos % 2 ^ 64 % 2 ^ 32 = nonceOf nanos := by
  unfold nonceOf
  omega

/-- The layout of a key, from its sanitized parts. -/
def keyText (keyPrefix tenant workspace date base : String) (nonce : Nat) : String :=
  keyPrefix ++ tenant ++ "/" ++ workspace ++ "/" ++ date ++ "/" ++
    String.ofList (padLeft 8 (Nat.toDigits 16 nonce)) ++ "-" ++ base

theorem buildKey_eq_keyText (keyPrefix tenant workspace base : String) (nanos : Nat) :
    buildKey keyPrefix tenant workspace base nanos =
      keyText keyPrefix (sanitizeSegment tenant) (sanitizeSegment workspace)
        (ymdFromUnix (nanos / 10 ^ 9)) (sanitizeSegment base) (nonceOf nanos) := by
  rw [buildKey, keyText, mod_mod_eq_nonceOf]

/-- A key can be taken apart: no part before the nonce holds a slash, and the nonce
    has a fixed length. -/
theorem keyText_inj {keyPrefix tenant tenant' workspace workspace' date date' base base' : String}
    {nonce nonce' : Nat} (htenant : '/' ∉ tenant.toList) (htenant' : '/' ∉ tenant'.toList)
    (hworkspace : '/' ∉ workspace.toList) (hworkspace' : '/' ∉ workspace'.toList)
    (hdate : '/' ∉ date.toList) (hdate' : '/' ∉ date'.toList)
    (hnonce : nonce < 2 ^ 32) (hnonce' : nonce' < 2 ^ 32)
    (h : keyText keyPrefix tenant workspace date base nonce =
      keyText keyPrefix tenant' workspace' date' base' nonce') :
    tenant = tenant' ∧ workspace = workspace' ∧ date = date' ∧ base = base' ∧ nonce = nonce' := by
  have hchars := congrArg String.toList h
  have hsep : "/".toList = ['/'] := rfl
  have hdash : "-".toList = ['-'] := rfl
  simp only [keyText, String.toList_append, String.toList_ofList, List.append_assoc, hsep, hdash,
    List.cons_append, List.nil_append] at hchars
  have hrest := List.append_cancel_left hchars
  obtain ⟨htenants, hrest⟩ := cut_at_first htenant htenant' hrest
  obtain ⟨hworkspaces, hrest⟩ := cut_at_first hworkspace hworkspace' hrest
  obtain ⟨hdates, hrest⟩ := cut_at_first hdate hdate' hrest
  obtain ⟨hnonces, hbases⟩ :=
    List.append_inj hrest ((length_nonce hnonce).trans (length_nonce hnonce').symm)
  refine ⟨String.toList_inj.mp htenants, String.toList_inj.mp hworkspaces,
    String.toList_inj.mp hdates, ?_, ?_⟩
  · exact String.toList_inj.mp (List.cons.inj hbases).2
  · exact padLeft_toDigits_inj (by decide) (by decide) hnonces

/-- Two uploads get one key exactly when their sanitized names, their day and their
    nonce agree. -/
theorem buildKey_inj {keyPrefix tenant workspace base tenant' workspace' base' : String}
    {nanos nanos' : Nat} :
    buildKey keyPrefix tenant workspace base nanos =
        buildKey keyPrefix tenant' workspace' base' nanos' ↔
      sanitizeSegment tenant = sanitizeSegment tenant' ∧
        sanitizeSegment workspace = sanitizeSegment workspace' ∧
        sanitizeSegment base = sanitizeSegment base' ∧
        dayOf (nanos / 10 ^ 9) = dayOf (nanos' / 10 ^ 9) ∧ nonceOf nanos = nonceOf nanos' := by
  rw [← ymdFromUnix_eq_iff, buildKey_eq_keyText, buildKey_eq_keyText]
  constructor
  · intro h
    obtain ⟨htenant, hworkspace, hday, hbase, hnonce⟩ := keyText_inj
      (slash_not_mem_sanitizeSegment _) (slash_not_mem_sanitizeSegment _)
      (slash_not_mem_sanitizeSegment _) (slash_not_mem_sanitizeSegment _)
      (slash_not_mem_ymdFromUnix _) (slash_not_mem_ymdFromUnix _) (nonceOf_lt _) (nonceOf_lt _) h
    exact ⟨htenant, hworkspace, hbase, hday, hnonce⟩
  · rintro ⟨htenant, hworkspace, hbase, hday, hnonce⟩
    rw [htenant, hworkspace, hbase, hday, hnonce]

/-! ### Reading a key -/

/-- The sanitized parts of a key, the day and the nonce among them. -/
structure KeyParts where
  tenant : String
  workspace : String
  day : String
  nonce : String
  base : String
deriving DecidableEq, Repr

def cutAtSlash (chars : List Char) : List Char × List Char :=
  (chars.takeWhile (· ≠ '/'), (chars.dropWhile (· ≠ '/')).drop 1)

/-- The parts of a key, by the first three slashes behind the prefix and the length of
    the nonce. -/
def KeyParts.read (keyPrefix key : String) : KeyParts :=
  let (tenant, rest) := cutAtSlash (key.toList.drop keyPrefix.toList.length)
  let (workspace, rest) := cutAtSlash rest
  let (day, rest) := cutAtSlash rest
  ⟨.ofList tenant, .ofList workspace, .ofList day, .ofList (rest.take 8),
    .ofList (rest.drop 9)⟩

theorem cutAtSlash_append {part rest : List Char} (h : '/' ∉ part) :
    cutAtSlash (part ++ '/' :: rest) = (part, rest) := by
  have hpart : ∀ c ∈ part, decide (c ≠ '/') = true := by
    intro c hc
    rw [decide_eq_true_eq]
    rintro rfl
    exact h hc
  rw [cutAtSlash, List.takeWhile_append_of_pos hpart, List.dropWhile_append_of_pos hpart]
  simp

/-- A key in the layout reads back as the parts it was built from. -/
theorem read_keyText (keyPrefix : String) {tenant workspace date : String} (base : String)
    {nonce : Nat} (htenant : '/' ∉ tenant.toList) (hworkspace : '/' ∉ workspace.toList)
    (hdate : '/' ∉ date.toList) (hnonce : nonce < 2 ^ 32) :
    KeyParts.read keyPrefix (keyText keyPrefix tenant workspace date base nonce) =
      ⟨tenant, workspace, date, .ofList (padLeft 8 (Nat.toDigits 16 nonce)), base⟩ := by
  have hsep : "/".toList = ['/'] := rfl
  have hdash : "-".toList = ['-'] := rfl
  have hlen := length_nonce hnonce
  unfold keyText
  generalize padLeft 8 (Nat.toDigits 16 nonce) = digits at hlen ⊢
  have htake : (digits ++ '-' :: base.toList).take 8 = digits := by
    rw [List.take_append_of_le_length (by omega), ← hlen, List.take_length]
  have hdrop : (digits ++ '-' :: base.toList).drop 9 = base.toList := by
    rw [List.drop_append, hlen, List.drop_eq_nil_of_le (by omega)]
    rfl
  simp only [KeyParts.read, String.toList_append, String.toList_ofList, List.append_assoc, hsep,
    hdash, List.cons_append, List.nil_append, List.drop_left, cutAtSlash_append htenant,
    cutAtSlash_append hworkspace, cutAtSlash_append hdate, htake, hdrop, String.ofList_toList]

/-- **Keys cannot be forged across segments.**  Whatever the strings hold, a key reads
    back as its sanitized parts, and two keys are equal exactly when these, the days and
    the low halves of the nanosecond counts are. -/
theorem key_segments (keyPrefix : String) :
    (∀ (tenant workspace base : String) (nanos : Nat),
      KeyParts.read keyPrefix (buildKey keyPrefix tenant workspace base nanos) =
        ⟨sanitizeSegment tenant, sanitizeSegment workspace, ymdFromUnix (nanos / 10 ^ 9),
          .ofList (padLeft 8 (Nat.toDigits 16 (nanos % 2 ^ 32))), sanitizeSegment base⟩) ∧
    ∀ (tenant workspace base tenant' workspace' base' : String) (nanos nanos' : Nat),
      buildKey keyPrefix tenant workspace base nanos =
          buildKey keyPrefix tenant' workspace' base' nanos' ↔
        sanitizeSegment tenant = sanitizeSegment tenant' ∧
          sanitizeSegment workspace = sanitizeSegment workspace' ∧
          sanitizeSegment base = sanitizeSegment base' ∧
          nanos / 10 ^ 9 / 86400 = nanos' / 10 ^ 9 / 86400 ∧
          nanos % 2 ^ 32 = nanos' % 2 ^ 32 := by
  constructor
  · intro tenant workspace base nanos
    rw [buildKey_eq_keyText]
    exact read_keyText keyPrefix _ (slash_not_mem_sanitizeSegment _)
      (slash_not_mem_sanitizeSegment _) (slash_not_mem_ymdFromUnix _) (nonceOf_lt nanos)
  · intro tenant workspace base tenant' workspace' base' nanos nanos'
    have hinj := @buildKey_inj keyPrefix tenant workspace base tenant' workspace' base' nanos nanos'
    unfold dayOf nonceOf at hinj
    exact hinj

/-! ### Runs of uploads -/

/-- One `UploadToOSS`: who uploads what, and the clock when its key is built. -/
structure KeyRequest where
  tenantId : String
  workspaceId : String
  basename : String
  nanos : Nat
deriving DecidableEq, Repr

def KeyRequest.key (keyPrefix : String) (r : KeyRequest) : String :=
  buildKey keyPrefix r.tenantId r.workspaceId r.basename r.nanos

/-- Nothing that goes into the keys tells the two apart. -/
structure KeyRequest.Clash (r r' : KeyRequest) : Prop where
  tenant : sanitizeSegment r.tenantId = sanitizeSegment r'.tenantId
  workspace : sanitizeSegment r.workspaceId = sanitizeSegment r'.workspaceId
  base : sanitizeSegment r.basename = sanitizeSegment r'.basename
  day : dayOf (r.nanos / 10 ^ 9) = dayOf (r'.nanos / 10 ^ 9)
  nonce : nonceOf r.nanos = nonceOf r'.nanos

theorem key_eq_iff_clash {keyPrefix : String} {r r' : KeyRequest} :
    r.key keyPrefix = r'.key keyPrefix ↔ r.Clash r' := by
  rw [KeyRequest.key, KeyRequest.key, buildKey_inj]
  constructor
  · rintro ⟨htenant, hworkspace, hbase, hday, hnonce⟩
    exact ⟨htenant, hworkspace, hbase, hday, hnonce⟩
  · rintro ⟨htenant, hworkspace, hbase, hday, hnonce⟩
    exact ⟨htenant, hworkspace, hbase, hday, hnonce⟩

/-- **Which uploads overwrite each other.**  In every run of uploads the keys are
    pairwise distinct exactly when no two of them clash; and the keys of two tenants
    differ exactly when their uploads do not clash. -/
theorem keys_distinct_iff (keyPrefix : String) :
    (∀ run : List KeyRequest, (run.map (KeyRequest.key keyPrefix)).Nodup ↔
      run.Pairwise fun r r' => ¬ r.Clash r') ∧
    ∀ r r' : KeyRequest, r.tenantId ≠ r'.tenantId →
      (r.key keyPrefix ≠ r'.key keyPrefix ↔ ¬ r.Clash r') := by
  constructor
  · intro run
    rw [List.Nodup, List.pairwise_map]
    simp only [Ne, key_eq_iff_clash]
  · intro r r' _
    exact not_congr key_eq_iff_clash

/-- The clock, 2^32 nanoseconds later, gives the same nonce; and two tenants whose names
    differ in a replaced character share a name space. -/
theorem keys_collide :
    (¬ ∀ run : List KeyRequest, run.Pairwise (fun r r' => r.nanos < r'.nanos) →
        (run.map (KeyRequest.key "sandbox/")).Nodup) ∧
      ¬ ∀ r r' : KeyRequest, r.tenantId ≠ r'.tenantId → r.key "sandbox/" ≠ r'.key "sandbox/" := by
  constructor
  · intro hrun
    have hdistinct := hrun [⟨"t", "w1", "a.txt", 0⟩, ⟨"t", "w1", "a.txt", 4294967296⟩] (by simp)
    simp only [List.map_cons, List.map_nil, List.nodup_cons, List.mem_singleton] at hdistinct
    exact hdistinct.1 (key_eq_iff_clash.mpr ⟨rfl, rfl, rfl, rfl, rfl⟩)
  · intro htenants
    apply htenants ⟨"a/b", "w1", "a.txt", 0⟩ ⟨"a_b", "w1", "a.txt", 0⟩ (by decide)
    exact key_eq_iff_clash.mpr ⟨by decide, rfl, rfl, rfl, rfl⟩

end Scriptorium
