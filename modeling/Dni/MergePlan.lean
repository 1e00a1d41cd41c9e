import Dni.IPGroups

namespace Dni

open GoMap Sieve

/-- The least interval that holds some addresses. -/
def Hull (ips : List UInt32) (a : UInt32) : Prop := (∃ x ∈ ips, x ≤ a) ∧ ∃ y ∈ ips, a ≤ y

/-- What the attackers of one /24 network are widened to; `cover` tells whether that many addresses
stand for the whole network. -/
def Span24 (cover : Nat → Bool) (ips : List UInt32) (g a : UInt32) : Prop :=
  if (∃ x ∈ ips, ∃ y ∈ ips, 200 ≤ y.toNat - x.toNat) ∨ cover ips.length then a &&& 0xFFFFFF00 = g
  else Hull ips a

def members (mask : UInt32) (es : List (UInt32 × Int)) (g : UInt32) : List UInt32 :=
  (es.filter fun e => e.1 &&& mask = g).map Prod.fst

/-- Merging attackers in three levels: strong addresses alone, then strong /24 networks of what is
left, then strong /16 networks of the rest. A /16 network with too few addresses for `cover` is
narrowed to a part of it. -/
structure MergePlan where
  hot32 : Int → Bool
  hot24 : Nat → Int → Bool
  hot16 : Nat → Int → Bool
  cover : Nat → Bool
  narrow16 : List UInt32 → UInt32 → UInt32 → Prop
  anyOrder : ∀ {ips jps g a}, ips.Perm jps → (narrow16 ips g a ↔ narrow16 jps g a)
  within : ∀ {ips g a}, g &&& 0xFFFF0000 = g → (∀ x ∈ ips, x &&& 0xFFFF0000 = g) →
    narrow16 ips g a → a &&& 0xFFFF0000 = g

theorem Hull.of_mem {ips : List UInt32} {a : UInt32} (h : a ∈ ips) : Hull ips a :=
  ⟨⟨a, h, UInt32.le_refl a⟩, a, h, UInt32.le_refl a⟩

theorem Hull.and_high {ips : List UInt32} {g a : UInt32} (hm : ∀ x ∈ ips, x &&& 0xFFFFFF00 = g)
    (h : Hull ips a) : a &&& 0xFFFFFF00 = g := by
  obtain ⟨⟨x, hx, hxa⟩, y, hy, hay⟩ := h
  have h₁ := toNat_and_high x
  have h₂ := toNat_and_high y
  rw [hm x hx] at h₁
  rw [hm y hy] at h₂
  rw [UInt32.le_iff_toNat_le] at hxa hay
  rw [← UInt32.toNat_inj, toNat_and_high]
  omega

theorem Hull.and_top {ips : List UInt32} {g a : UInt32} (hm : ∀ x ∈ ips, x &&& 0xFFFF0000 = g)
    (h : Hull ips a) : a &&& 0xFFFF0000 = g := by
  obtain ⟨⟨x, hx, hxa⟩, y, hy, hay⟩ := h
  have h₁ := toNat_and_top x
  have h₂ := toNat_and_top y
  rw [hm x hx] at h₁
  rw [hm y hy] at h₂
  rw [UInt32.le_iff_toNat_le] at hxa hay
  rw [← UInt32.toNat_inj, toNat_and_top]
  omega

theorem Hull.congr {ips jps : List UInt32} (h : ∀ x, x ∈ ips ↔ x ∈ jps) (a : UInt32) :
    Hull ips a ↔ Hull jps a := by
  unfold Hull
  simp only [h]

theorem hull_iff {ips : List UInt32} {x y : UInt32} (hx : x ∈ ips) (hy : y ∈ ips)
    (h : ∀ z ∈ ips, x.toNat ≤ z.toNat ∧ z.toNat ≤ y.toNat) (a : UInt32) :
    Hull ips a ↔ x ≤ a ∧ a ≤ y := by
  constructor
  · intro h
    rcases h with ⟨⟨z, hz, hza⟩, w, hw, haw⟩
    have hz' := h z hz
    have hw' := h w hw
    simp only [UInt32.le_iff_toNat_le] at *
    omega
  · exact fun ⟨h₁, h₂⟩ => ⟨⟨x, hx, h₁⟩, y, hy, h₂⟩

theorem Span24.of_mem {cover : Nat → Bool} {ips : List UInt32} {g a : UInt32}
    (hm : ∀ x ∈ ips, x &&& 0xFFFFFF00 = g) (h : a ∈ ips) : Span24 cover ips g a := by
  unfold Span24
  split
  next => exact hm a h
  next => exact Hull.of_mem h

theorem Span24.and_high {cover : Nat → Bool} {ips : List UInt32} {g a : UInt32}
    (hm : ∀ x ∈ ips, x &&& 0xFFFFFF00 = g) (h : Span24 cover ips g a) : a &&& 0xFFFFFF00 = g := by
  unfold Span24 at h
  split at h
  next => exact h
  next => exact h.and_high hm

theorem Span24.congr {cover : Nat → Bool} {ips jps : List UInt32} (h : ips.Perm jps) (g a : UInt32) :
    Span24 cover ips g a ↔ Span24 cover jps g a := by
  unfold Span24
  simp only [h.mem_iff, h.length_eq, Hull.congr (fun x => h.mem_iff) a]

theorem mem_members {mask : UInt32} {es : List (UInt32 × Int)} {g x : UInt32} :
    x ∈ members mask es g ↔ (∃ c, (x, c) ∈ es) ∧ x &&& mask = g := by
  simp [members]

theorem members_key {mask : UInt32} {es : List (UInt32 × Int)} {g : UInt32} :
    ∀ x ∈ members mask es g, x &&& mask = g := fun _ hx => (mem_members.mp hx).2

theorem members_ne_nil (mask : UInt32) {es : List (UInt32 × Int)} {e : UInt32 × Int} (he : e ∈ es) :
    members mask es (e.1 &&& mask) ≠ [] :=
  List.ne_nil_of_mem (mem_members.mpr ⟨⟨e.2, he⟩, rfl⟩)

/-- The lists that the loops build for a group that has members. -/
theorem getD_groupValues {mask : UInt32} {value : UInt32 → UInt32} {es : List (UInt32 × Int)}
    {e : UInt32 × Int} (he : e ∈ es) : ((groupValues mask value es).lookup (e.1 &&& mask)).getD [] =
      (members mask es (e.1 &&& mask)).map value := by
  rw [lookup_groupValues mask (fun _ _ => true), if_pos ⟨e, he, rfl⟩, members, List.map_map]
  rfl

theorem getD_groupMembers {mask : UInt32} {es : List (UInt32 × Int)} {e : UInt32 × Int} (he : e ∈ es) :
    ((groupMembers mask es).lookup (e.1 &&& mask)).getD [] = members mask es (e.1 &&& mask) := by
  rw [groupMembers, getD_groupValues he, List.map_id']

theorem members_perm {es fs : List (UInt32 × Int)} (h : es.Perm fs) (mask g : UInt32) :
    (members mask es g).Perm (members mask fs g) := (h.filter _).map _

namespace MergePlan

variable (p : MergePlan) (es : List (UInt32 × Int))

def tier32 : Tier UInt32 UInt32 := ⟨id, fun _ => p.hot32⟩

def tier24 : Tier UInt32 UInt32 := maskTier 0xFFFFFF00 p.hot24

def tier16 : Tier UInt32 UInt32 := maskTier 0xFFFF0000 p.hot16

/-- What is left after the first level, the second and the third. -/
def rest32 : List (UInt32 × Int) := p.tier32.rest es

def rest24 : List (UInt32 × Int) := p.tier24.rest (p.rest32 es)

def rest16 : List (UInt32 × Int) := p.tier16.rest (p.rest24 es)

def Span16 (ips : List UInt32) (g a : UInt32) : Prop :=
  if p.cover ips.length then a &&& 0xFFFF0000 = g else p.narrow16 ips g a

/-- The address `a` is reported by the first level, the second or the third, where `es` is what
reaches that level. -/
def Level32 (a : UInt32) : Prop := (∃ c, (a, c) ∈ es) ∧ p.tier32.Hot es a

def Level24 (a : UInt32) : Prop :=
  ∃ e ∈ es, p.tier24.Hot es (e.1 &&& 0xFFFFFF00) ∧
    Span24 p.cover (members 0xFFFFFF00 es (e.1 &&& 0xFFFFFF00)) (e.1 &&& 0xFFFFFF00) a

def Level16 (a : UInt32) : Prop :=
  ∃ e ∈ es, p.tier16.Hot es (e.1 &&& 0xFFFF0000) ∧
    p.Span16 (members 0xFFFF0000 es (e.1 &&& 0xFFFF0000)) (e.1 &&& 0xFFFF0000) a

def Attacked (a : UInt32) : Prop :=
  p.Level32 es a ∨ p.Level24 (p.rest32 es) a ∨ p.Level16 (p.rest24 es) a

/-- No attacker is lost: what is not left over is reported. -/
def Conserves : Prop := ∀ e ∈ es, p.Attacked es e.1 ∨ e ∈ p.rest16 es

variable {p es}

theorem Span16.and_top {ips : List UInt32} {x a : UInt32}
    (hm : ∀ y ∈ ips, y &&& 0xFFFF0000 = x &&& 0xFFFF0000) (h : p.Span16 ips (x &&& 0xFFFF0000) a) :
    a &&& 0xFFFF0000 = x &&& 0xFFFF0000 := by
  unfold Span16 at h
  split at h
  next => exact h
  next => exact p.within (and_top_idem x) hm h

theorem span16_perm {ips jps : List UInt32} (h : ips.Perm jps) (g a : UInt32) :
    p.Span16 ips g a ↔ p.Span16 jps g a := by
  unfold Span16
  simp only [h.length_eq, p.anyOrder h]

theorem level24_perm {fs : List (UInt32 × Int)} (h : es.Perm fs) (a : UInt32) :
    p.Level24 es a ↔ p.Level24 fs a := by
  unfold Level24
  simp only [h.mem_iff, Tier.hot_perm h, Span24.congr (members_perm h _ _)]

theorem level16_perm {fs : List (UInt32 × Int)} (h : es.Perm fs) (a : UInt32) :
    p.Level16 es a ↔ p.Level16 fs a := by
  unfold Level16
  simp only [h.mem_iff, Tier.hot_perm h, span16_perm (members_perm h _ _)]

theorem level24_nil (a : UInt32) : ¬ p.Level24 [] a := by simp [Level24]

theorem level16_nil (a : UInt32) : ¬ p.Level16 [] a := by simp [Level16]

/-- Every address is a group of its own on the first level. -/
theorem tier32_hot {m : IPCount} {ip : UInt32} {c : Int} (h : m.lookup ip = some c) :
    p.tier32.Hot (pairs m) ip ↔ p.hot32 c = true := by
  have hnd : (pairs m).Nodup := (pairs_nodup m).of_map _
  have hgroup : (p.tier32.group (pairs m) ip).Perm [(ip, c)] := by
    refine (List.perm_ext_iff_of_nodup (hnd.filter _) (List.nodup_singleton _)).mpr fun e => ?_
    rw [List.mem_filter, mem_pairs, List.mem_singleton, decide_eq_true_eq]
    constructor
    · intro h
      rcases h with ⟨he, hk⟩
      have hk' : e.1 = ip := hk
      rw [hk', h] at he
      exact Prod.ext hk' (Option.some.inj he).symm
    · rintro rfl
      exact ⟨h, rfl⟩
  have hmass : mass (p.tier32.group (pairs m) ip) = c := by
    rw [mass_perm hgroup]
    simp [mass]
  unfold Tier.Hot
  rw [hmass]
  rfl

variable (p) in
/-- The addresses with a strong count, as the loops collect them. -/
theorem mem_strong (o : Order UInt32 Int) (m : IPCount) (a : UInt32) :
    a ∈ ((o.run m).filter fun e => p.hot32 e.2).map Prod.fst ↔ p.Level32 (pairs m) a := by
  simp only [List.mem_map, List.mem_filter, Level32]
  constructor
  · intro h
    rcases h with ⟨⟨ip, c⟩, ⟨he, hle⟩, rfl⟩
    have hlook := o.mem_run.mp he
    exact ⟨⟨c, mem_pairs.mpr hlook⟩, (tier32_hot hlook).mpr hle⟩
  · intro h
    rcases h with ⟨⟨c, hc⟩, hhot⟩
    have hlook := mem_pairs.mp hc
    exact ⟨(a, c), ⟨o.mem_run.mpr hlook, (tier32_hot hlook).mp hhot⟩, rfl⟩

variable (p) in
theorem erase_strong (o : Order UInt32 Int) (m : IPCount) :
    (pairs (eraseAll (((o.run m).filter fun e => p.hot32 e.2).map Prod.fst) m)).Perm
      (p.rest32 (pairs m)) := by
  refine pairs_perm_filter fun ip c => ?_
  rw [lookup_eraseAll, decide_eq_true_eq]
  by_cases hip : m.lookup ip = some c
  · have hmem : ip ∈ ((o.run m).filter fun e => p.hot32 e.2).map Prod.fst ↔
        p.tier32.Hot (pairs m) ip := by
      rw [mem_strong]
      exact and_iff_right ⟨c, mem_pairs.mpr hip⟩
    by_cases hhot : p.tier32.Hot (pairs m) ip
    · rw [if_pos (hmem.mpr hhot)]
      exact ⟨fun h => (Option.some_ne_none c h.symm).elim, fun h => absurd hhot h.2⟩
    · rw [if_neg (hmem.not.mpr hhot)]
      exact ⟨fun h => ⟨h, hhot⟩, And.left⟩
  · simp [hip]

theorem level32_of_hot {e : UInt32 × Int} (he : e ∈ es) (hhot : p.tier32.Hot es e.1) :
    p.Level32 es e.1 := ⟨⟨e.2, he⟩, hhot⟩

theorem level24_of_hot {e : UInt32 × Int} (he : e ∈ es)
    (hhot : p.tier24.Hot es (e.1 &&& 0xFFFFFF00)) : p.Level24 es e.1 :=
  ⟨e, he, hhot, Span24.of_mem members_key (mem_members.mpr ⟨⟨e.2, he⟩, rfl⟩)⟩

/-- Only the network of an address can make the third level report it. -/
theorem level16_at {e : UInt32 × Int} (he : e ∈ es) (hhot : p.tier16.Hot es (e.1 &&& 0xFFFF0000))
    {a : UInt32} (ha : a &&& 0xFFFF0000 = e.1 &&& 0xFFFF0000) : p.Level16 es a ↔
      p.Span16 (members 0xFFFF0000 es (e.1 &&& 0xFFFF0000)) (e.1 &&& 0xFFFF0000) a := by
  constructor
  · intro h
    rcases h with ⟨f, hf, hh, hs⟩
    have hk := Span16.and_top members_key hs
    rw [← ha, hk]
    exact hs
  · exact fun hs => ⟨e, he, hhot, hs⟩

/-- What the third level takes out is reported by that level or not at all. -/
theorem attacked_iff_of_hot {e : UInt32 × Int} (he : e ∈ p.rest24 es)
    (hhot : p.tier16.Hot (p.rest24 es) (e.1 &&& 0xFFFF0000)) :
    p.Attacked es e.1 ↔ p.Span16 (members 0xFFFF0000 (p.rest24 es) (e.1 &&& 0xFFFF0000))
      (e.1 &&& 0xFFFF0000) e.1 := by
  obtain ⟨he32, hn24⟩ := Tier.mem_rest.mp he
  have hn32 := (Tier.mem_rest.mp he32).2
  rw [← level16_at he hhot rfl]
  constructor
  · rintro (h | ⟨f, hf, hh, hs⟩ | h)
    · exact absurd h.2 hn32
    · have hk : p.tier24.key e.1 = f.1 &&& 0xFFFFFF00 := hs.and_high members_key
      rw [hk] at hn24
      exact absurd hh hn24
    · exact h
  · exact fun h => Or.inr (Or.inr h)

theorem conserves_iff : p.Conserves es ↔ ∀ e ∈ p.rest24 es,
    p.tier16.Hot (p.rest24 es) (e.1 &&& 0xFFFF0000) →
      p.Span16 (members 0xFFFF0000 (p.rest24 es) (e.1 &&& 0xFFFF0000)) (e.1 &&& 0xFFFF0000) e.1 := by
  constructor
  · intro h e he hhot
    have hmem : e ∈ es := (Tier.mem_rest.mp (Tier.mem_rest.mp he).1).1
    rcases h e hmem with ha | hr
    · exact (attacked_iff_of_hot he hhot).mp ha
    · exact absurd hhot (Tier.mem_rest.mp hr).2
  · intro h e he
    by_cases h32 : p.tier32.Hot es e.1
    · exact Or.inl (Or.inl (level32_of_hot he h32))
    have he32 : e ∈ p.rest32 es := Tier.mem_rest.mpr ⟨he, h32⟩
    by_cases h24 : p.tier24.Hot (p.rest32 es) (e.1 &&& 0xFFFFFF00)
    · exact Or.inl (Or.inr (Or.inl (level24_of_hot he32 h24)))
    have he24 : e ∈ p.rest24 es := Tier.mem_rest.mpr ⟨he32, h24⟩
    by_cases h16 : p.tier16.Hot (p.rest24 es) (e.1 &&& 0xFFFF0000)
    · exact Or.inl ((attacked_iff_of_hot he24 h16).mpr (h e he24 h16))
    · exact Or.inr (Tier.mem_rest.mpr ⟨he24, h16⟩)

end MergePlan

/-- Every entry of a histogram is reported or still there with its count. -/
def Conserved (before after : IPCount) (reported : UInt32 → Prop) : Prop :=
  ∀ ip count, before.lookup ip = some count → reported ip ∨ after.lookup ip = some count

/-- Every address that left a histogram is reported. -/
def ErasedReported (before after : IPCount) (reported : UInt32 → Prop) : Prop :=
  ∀ ip ∈ before, ip ∉ after → reported ip

theorem erasedReported_iff {before after : IPCount} {reported : UInt32 → Prop}
    (hsub : ∀ ip count, after.lookup ip = some count → before.lookup ip = some count) :
    ErasedReported before after reported ↔ Conserved before after reported := by
  constructor
  · intro h ip count hb
    by_cases ha : ip ∈ after
    · obtain ⟨c, hc⟩ := mem_iff_lookup.mp ha
      have hcb := hsub ip c hc
      rw [hb] at hcb
      cases hcb
      exact Or.inr hc
    · exact Or.inl (h ip (mem_iff_lookup.mpr ⟨count, hb⟩) ha)
  · intro h ip hb ha
    obtain ⟨c, hc⟩ := mem_iff_lookup.mp hb
    exact (h ip c hc).resolve_right fun hl => ha (mem_iff_lookup.mpr ⟨c, hl⟩)

/-- What one level takes out of a histogram. -/
theorem erasedReported_tier_iff {t : Tier UInt32 UInt32} {es : List (UInt32 × Int)}
    {before after : IPCount} {reported : UInt32 → Prop} (hb : (pairs before).Perm es)
    (ha : (pairs after).Perm (t.rest es)) :
    ErasedReported before after reported ↔ ∀ e ∈ es, t.Hot es (t.key e.1) → reported e.1 := by
  constructor
  · intro h e he hhot
    refine h e.1 (mem_iff_lookup.mpr ⟨e.2, mem_pairs.mp (hb.mem_iff.mpr he)⟩) fun hin => ?_
    obtain ⟨v, hv⟩ := mem_iff_lookup.mp hin
    exact (Tier.mem_rest.mp (ha.mem_iff.mp (mem_pairs.mpr hv))).2 hhot
  · intro h ip hip hout
    obtain ⟨c, hc⟩ := mem_iff_lookup.mp hip
    have he := hb.mem_iff.mp (mem_pairs.mpr hc)
    refine h _ he (by_contra fun hcold => hout (mem_iff_lookup.mpr ⟨c, mem_pairs.mp ?_⟩))
    exact ha.mem_iff.mpr (Tier.mem_rest.mpr ⟨he, hcold⟩)

/-- The abstract plan and the code lose the same addresses. -/
theorem MergePlan.conserves_iff_conserved {p : MergePlan} {before after : IPCount}
    {reported : UInt32 → Prop} (hrep : ∀ a, reported a ↔ p.Attacked (pairs before) a)
    (hrest : (pairs after).Perm (p.rest16 (pairs before))) :
    Conserved before after reported ↔ p.Conserves (pairs before) := by
  unfold Conserved Conserves
  simp only [Prod.forall, mem_pairs, hrep, ← hrest.mem_iff]

theorem MergePlan.lookup_of_rest {p : MergePlan} {before after : IPCount}
    (hrest : (pairs after).Perm (p.rest16 (pairs before))) (ip : UInt32) (count : Int)
    (h : after.lookup ip = some count) : before.lookup ip = some count := by
  have hsub := (Tier.rest_sublist.trans (Tier.rest_sublist.trans Tier.rest_sublist)).subset
    (hrest.mem_iff.mp (mem_pairs.mpr h))
  exact mem_pairs.mp hsub

/-- Twelve /24 networks of one /16 with one address of nine packets each. -/
def spreadAttack : IPCount :=
  (List.range 12).foldl (fun m k => m.insert (0x0A000101 + 256 * UInt32.ofNat k) 9) ∅

end Dni
