import Scriptorium.Fetch

/-!
# One destination, two spellings

A dual-stack socket delivers to the IPv4 address `a` what is sent to the
IPv4-mapped address `::ffff:a`.  The IPv4 half of `is_disallowed` refuses a list
of address blocks (`isDisallowed_v4_iff`); the IPv6 half looks at the first segment
of an address and at two single addresses, and refuses no mapped address at all.
-/

namespace Scriptorium

/-! ### Blocks of addresses -/

def Ipv4Addr.toNat (ip : Ipv4Addr) : Nat :=
  ((ip.a.toNat * 256 + ip.b.toNat) * 256 + ip.c.toNat) * 256 + ip.d.toNat

/-- The block `base/len`: the addresses with the first `len` bits of `base`. -/
structure Ipv4Net where
  base : Ipv4Addr
  len : Nat

def Ipv4Net.Contains (block : Ipv4Net) (ip : Ipv4Addr) : Prop :=
  ip.toNat / 2 ^ (32 - block.len) = block.base.toNat / 2 ^ (32 - block.len)

instance (block : Ipv4Net) (ip : Ipv4Addr) : Decidable (block.Contains ip) := by
  unfold Ipv4Net.Contains; infer_instance

/-- What the filter is there to keep a fetch away from. -/
def refusedBlocks : List Ipv4Net :=
  [⟨⟨0, 0, 0, 0⟩, 8⟩, ⟨⟨10, 0, 0, 0⟩, 8⟩, ⟨⟨100, 64, 0, 0⟩, 10⟩, ⟨⟨127, 0, 0, 0⟩, 8⟩,
    ⟨⟨169, 254, 0, 0⟩, 16⟩, ⟨⟨172, 16, 0, 0⟩, 12⟩, ⟨⟨192, 0, 2, 0⟩, 24⟩, ⟨⟨192, 168, 0, 0⟩, 16⟩,
    ⟨⟨198, 51, 100, 0⟩, 24⟩, ⟨⟨203, 0, 113, 0⟩, 24⟩, ⟨⟨255, 255, 255, 255⟩, 32⟩]

section

variable {a b c d x y z w : UInt8}

theorem contains_8 : (⟨⟨x, y, z, w⟩, 8⟩ : Ipv4Net).Contains ⟨a, b, c, d⟩ ↔ a = x := by
  have hb := b.toNat_lt
  have hc := c.toNat_lt
  have hd := d.toNat_lt
  have hy := y.toNat_lt
  have hz := z.toNat_lt
  have hw := w.toNat_lt
  simp only [Ipv4Net.Contains, Ipv4Addr.toNat, ← UInt8.toNat_inj]
  omega

theorem contains_10 : (⟨⟨x, y, z, w⟩, 10⟩ : Ipv4Net).Contains ⟨a, b, c, d⟩ ↔
    a = x ∧ b.toNat / 64 = y.toNat / 64 := by
  have hb := b.toNat_lt
  have hc := c.toNat_lt
  have hd := d.toNat_lt
  have hy := y.toNat_lt
  have hz := z.toNat_lt
  have hw := w.toNat_lt
  simp only [Ipv4Net.Contains, Ipv4Addr.toNat, ← UInt8.toNat_inj]
  omega

theorem contains_12 : (⟨⟨x, y, z, w⟩, 12⟩ : Ipv4Net).Contains ⟨a, b, c, d⟩ ↔
    a = x ∧ b.toNat / 16 = y.toNat / 16 := by
  have hb := b.toNat_lt
  have hc := c.toNat_lt
  have hd := d.toNat_lt
  have hy := y.toNat_lt
  have hz := z.toNat_lt
  have hw := w.toNat_lt
  simp only [Ipv4Net.Contains, Ipv4Addr.toNat, ← UInt8.toNat_inj]
  omega

theorem contains_16 : (⟨⟨x, y, z, w⟩, 16⟩ : Ipv4Net).Contains ⟨a, b, c, d⟩ ↔ a = x ∧ b = y := by
  have hb := b.toNat_lt
  have hc := c.toNat_lt
  have hd := d.toNat_lt
  have hy := y.toNat_lt
  have hz := z.toNat_lt
  have hw := w.toNat_lt
  simp only [Ipv4Net.Contains, Ipv4Addr.toNat, ← UInt8.toNat_inj]
  omega

theorem contains_24 : (⟨⟨x, y, z, w⟩, 24⟩ : Ipv4Net).Contains ⟨a, b, c, d⟩ ↔
    a = x ∧ b = y ∧ c = z := by
  have hb := b.toNat_lt
  have hc := c.toNat_lt
  have hd := d.toNat_lt
  have hy := y.toNat_lt
  have hz := z.toNat_lt
  have hw := w.toNat_lt
  simp only [Ipv4Net.Contains, Ipv4Addr.toNat, ← UInt8.toNat_inj]
  omega

theorem contains_32 : (⟨⟨x, y, z, w⟩, 32⟩ : Ipv4Net).Contains ⟨a, b, c, d⟩ ↔
    a = x ∧ b = y ∧ c = z ∧ d = w := by
  have hb := b.toNat_lt
  have hc := c.toNat_lt
  have hd := d.toNat_lt
  have hy := y.toNat_lt
  have hz := z.toNat_lt
  have hw := w.toNat_lt
  simp only [Ipv4Net.Contains, Ipv4Addr.toNat, ← UInt8.toNat_inj]
  omega

end

/-- The two highest bits of an octet say in which quarter of its range it lies. -/
theorem and_c0_eq {b : UInt8} : b &&& 0xc0 = 64 ↔ 64 ≤ b.toNat ∧ b.toNat < 128 := by
  have hall : ∀ n : Fin 256, UInt8.ofNat n.val &&& 0xc0 = 64 ↔ 64 ≤ n.val ∧ n.val < 128 := by
    decide +kernel
  simpa using hall ⟨b.toNat, b.toNat_lt⟩

/-- The IPv4 half of the filter refuses exactly the listed blocks. -/
theorem isDisallowed_v4_iff {ip : Ipv4Addr} :
    isDisallowed (.v4 ip) = true ↔ ∃ block ∈ refusedBlocks, block.Contains ip := by
  obtain ⟨a, b, c, d⟩ := ip
  have hcgn : b &&& 0xc0 = 64 ↔ b.toNat / 64 = (64 : UInt8).toNat / 64 := by
    simp only [and_c0_eq, UInt8.reduceToNat]
    omega
  have hprivate : 16 ≤ b ∧ b ≤ 31 ↔ b.toNat / 16 = (16 : UInt8).toNat / 16 := by
    simp only [UInt8.le_iff_toNat_le, UInt8.reduceToNat]
    omega
  simp only [refusedBlocks, List.exists_mem_cons_iff, List.not_mem_nil, false_and, exists_false,
    or_false, contains_8, contains_10, contains_12, contains_16, contains_24, contains_32]
  simp only [isDisallowed, Ipv4Addr.isLoopback, Ipv4Addr.isPrivate, Ipv4Addr.isLinkLocal,
    Ipv4Addr.isBroadcast, Ipv4Addr.isDocumentation, Ipv4Addr.isUnspecified, Bool.or_eq_true,
    Bool.and_eq_true, beq_iff_eq, decide_eq_true_eq, Ipv4Addr.mk.injEq, and_assoc, or_assoc, hcgn,
      hprivate]
  constructor
  · rintro (h | h | h | h | h | h | h | h | h | h | h | h) <;> simp [h]
  · rintro (h | h | h | h | h | h | h | h | h | h | h) <;> simp [h]

/-! ### The mapped form -/

/-- `::ffff:a.b.c.d`. -/
def Ipv4Addr.toIpv6Mapped (ip : Ipv4Addr) : Ipv6Addr :=
  ⟨0, 0, 0, 0, 0, 0xffff, ip.a.toUInt16 <<< 8 ||| ip.b.toUInt16,
    ip.c.toUInt16 <<< 8 ||| ip.d.toUInt16⟩

/-- None of the tests of the IPv6 half can see a mapped address: its first segment
    is zero and its sixth is not. -/
theorem isDisallowed_mapped (ip : Ipv4Addr) : isDisallowed (.v6 ip.toIpv6Mapped) = false := by
  simp [isDisallowed, Ipv6Addr.isLoopback, Ipv6Addr.isUnspecified, Ipv6Addr.isMulticast,
    Ipv4Addr.toIpv6Mapped]

/-- Both spellings of a destination get the verdict of the IPv4 one: from the filter,
    as the literal host of a URL, and at any place of the answer of a lookup. -/
structure FamiliesAgree (ip : Ipv4Addr) : Prop where
  filter : isDisallowed (.v4 ip) = true → isDisallowed (.v6 ip.toIpv6Mapped) = true
  literal : ∀ net scheme text text',
    (assertPublicHost net ⟨scheme, some (.ip (.v6 ip.toIpv6Mapped)), text'⟩).isOk =
      (assertPublicHost net ⟨scheme, some (.ip (.v4 ip)), text⟩).isOk
  answer : ∀ host before after,
    (assertPublicAddrs host (.ok (before ++ .v6 ip.toIpv6Mapped :: after))).isOk =
      (assertPublicAddrs host (.ok (before ++ .v4 ip :: after))).isOk

/-- An answer is accepted when it is not empty and none of its addresses is refused. -/
theorem isOk_assertPublicAddrs {host : String} {addrs : List IpAddr} (h : addrs ≠ []) :
    (assertPublicAddrs host (.ok addrs)).isOk = addrs.all (fun ip => !isDisallowed ip) := by
  cases addrs with
  | nil => exact absurd rfl h
  | cons first rest =>
    unfold assertPublicAddrs
    rcases hfind : (first :: rest).find? isDisallowed with _ | bad
    · have hall : (first :: rest).all (fun ip => !isDisallowed ip) = true := by
        simpa [List.find?_eq_none] using hfind
      simp only [hfind, hall]
      rfl
    · obtain ⟨hbad, -⟩ := List.find?_eq_some_iff_append.mp hfind
      have hmem := List.mem_of_find?_eq_some hfind
      have hnot : (first :: rest).all (fun ip => !isDisallowed ip) = false :=
        List.all_eq_false.mpr ⟨bad, hmem, by simp [hbad]⟩
      simp only [hfind, hnot]
      rfl

/-- **When the spelling of an address does not matter.**  The filter treats `a` and
    `::ffff:a` alike exactly when it has no reason to refuse `a`: when `a` lies in none
    of the refused blocks. -/
theorem familiesAgree_iff (ip : Ipv4Addr) :
    FamiliesAgree ip ↔ ∀ block ∈ refusedBlocks, ¬ block.Contains ip := by
  have hblocks : (∀ block ∈ refusedBlocks, ¬ block.Contains ip) ↔ isDisallowed (.v4 ip) =
      false := by
    rw [← Bool.not_eq_true, isDisallowed_v4_iff]
    simp
  have hmapped := isDisallowed_mapped ip
  rw [hblocks]
  constructor
  · intro h
    by_contra hdis
    have hrefused := h.filter (by simpa using hdis)
    rw [hmapped] at hrefused
    cases hrefused
  · intro hfree
    constructor
    · intro hdis
      rw [hfree] at hdis
      cases hdis
    · intro net scheme text text'
      have hv4 : assertPublicHost net ⟨scheme, some (.ip (.v4 ip)), text⟩ = .ok () := by
        simp [assertPublicHost, hfree]
      have hv6 : (assertPublicHost net ⟨scheme, some (.ip (.v6 ip.toIpv6Mapped)), text'⟩).isOk =
          true := by
        rw [assertPublicHost, isOk_assertPublicAddrs (by simp)]
        simp [hmapped]
      rw [hv4, hv6]
      rfl
    · intro host before after
      rw [isOk_assertPublicAddrs (by simp), isOk_assertPublicAddrs (by simp)]
      simp [hmapped, hfree]

/-- The loopback interface under its IPv6 spelling passes the filter. -/
theorem mapped_loopback_passes :
    isDisallowed (.v4 ⟨127, 0, 0, 1⟩) = true ∧
      isDisallowed (.v6 ⟨0, 0, 0, 0, 0, 0xffff, 0x7f00, 1⟩) = false ∧
      (⟨127, 0, 0, 1⟩ : Ipv4Addr).toIpv6Mapped = ⟨0, 0, 0, 0, 0, 0xffff, 0x7f00, 1⟩ ∧
      ¬ FamiliesAgree ⟨127, 0, 0, 1⟩ := by
  refine ⟨by decide, by decide, by decide, fun h => ?_⟩
  have hrefused := h.filter (by decide)
  exact absurd hrefused (by decide)

end Scriptorium
