import Dni.Lib.Bytes

/-- What a program over byte memory did: the addresses it read, and its result unless it aborted. -/
structure Access (α : Type) where
  addrs : List Nat
  value : Option α

namespace Access

variable {α β : Type} {mem : Nat → UInt8} {a n S : Nat}

instance : Monad Access where
  pure v := ⟨[], some v⟩
  bind x f :=
    match x.value with
    | none => ⟨x.addrs, none⟩
    | some v => ⟨x.addrs ++ (f v).addrs, (f v).value⟩

def abort : Access α := ⟨[], none⟩

/-- The `n` bytes from `a` on. -/
def bytes (mem : Nat → UInt8) (a n : Nat) : Access (List UInt8) :=
  ⟨List.range' a n, some ((List.range' a n).map mem)⟩

/-- The number of `n` bytes at `a`, least significant byte first. -/
def little (mem : Nat → UInt8) (a n : Nat) : Nat := Bytes.val ((List.range' a n).map mem).reverse

def word (mem : Nat → UInt8) (a n : Nat) : Access Nat := ⟨List.range' a n, some (little mem a n)⟩

/-- The number of `n` bytes at `a` in network order. -/
def network (mem : Nat → UInt8) (a n : Nat) : Nat := Bytes.val ((List.range' a n).map mem)

def netWord (mem : Nat → UInt8) (a n : Nat) : Access Nat :=
  ⟨List.range' a n, some (network mem a n)⟩

/-- The bytes stand in memory from `a` on. -/
def Holds (mem : Nat → UInt8) (a : Nat) (bs : List UInt8) : Prop :=
  (List.range' a bs.length).map mem = bs

/-- A number below 2^16, least significant byte first. -/
def le16 (n : Nat) : List UInt8 := [UInt8.ofNat n, UInt8.ofNat (n / 256)]

/-- No address from `S` on is read. -/
def Inside (x : Access α) (S : Nat) : Prop := ∀ b ∈ x.addrs, b < S

@[simp] theorem value_pure (v : α) : (pure v : Access α).value = some v := rfl

@[simp] theorem addrs_pure (v : α) : (pure v : Access α).addrs = [] := rfl

@[simp] theorem value_abort : (abort : Access α).value = none := rfl

@[simp] theorem value_word : (word mem a n).value = some (little mem a n) := rfl

@[simp] theorem value_bytes : (bytes mem a n).value = some ((List.range' a n).map mem) := rfl

theorem value_bind (x : Access α) (f : α → Access β) :
    (x >>= f).value = x.value.bind fun v => (f v).value := by
  change (match x.value with | none => _ | some v => _ : Access β).value = _
  cases x.value <;> rfl

theorem bind_of_value {x : Access α} {v : α} (f : α → Access β) (h : x.value = some v) :
    x >>= f = ⟨x.addrs ++ (f v).addrs, (f v).value⟩ := by
  change (match x.value with | none => _ | some v => _ : Access β) = _
  rw [h]

theorem pure_bind (v : α) (f : α → Access β) : pure v >>= f = f v := rfl

theorem abort_bind (f : α → Access β) : abort >>= f = abort := rfl

theorem inside_bind {x : Access α} {v : α} {f : α → Access β} (h : x.value = some v) :
    (x >>= f).Inside S ↔ x.Inside S ∧ (f v).Inside S := by
  rw [bind_of_value f h]
  simp [Inside, or_imp, forall_and]

theorem inside_word (hn : 0 < n) : (word mem a n).Inside S ↔ a + n ≤ S := by
  simp only [Inside, word, List.mem_range'_1]
  apply Iff.intro
  · intro h
    have hlast := h (a + n - 1) (by omega)
    omega
  · intro h b hb
    omega

theorem inside_bytes (h : a + n ≤ S) : (bytes mem a n).Inside S := by
  intro b hb
  have hmem := List.mem_range'_1.mp hb
  omega

/-- It finishes with a value, and inside. -/
def Safe (x : Access α) (S : Nat) (v : α) : Prop := x.value = some v ∧ x.Inside S

theorem safe_pure {v w : α} : (pure v : Access α).Safe S w ↔ v = w := by
  simp [Safe, Inside]

theorem not_safe_abort {v : α} : ¬ (abort : Access α).Safe S v := by
  intro h
  cases h.1

theorem safe_bytes (h : a + n ≤ S) : (bytes mem a n).Safe S ((List.range' a n).map mem) :=
  ⟨rfl, inside_bytes h⟩

theorem safe_word (h : a + n ≤ S) : (word mem a n).Safe S (little mem a n) :=
  ⟨rfl, @inside_bytes mem a n S h⟩

theorem safe_bind {x : Access α} {f : α → Access β} {w : β} :
    (x >>= f).Safe S w ↔ ∃ v, x.Safe S v ∧ (f v).Safe S w := by
  apply Iff.intro
  · intro ⟨hw, hin⟩
    rw [value_bind] at hw
    obtain ⟨v, hv, hf⟩ := Option.bind_eq_some_iff.mp hw
    obtain ⟨hx, hfv⟩ := (inside_bind hv).mp hin
    exact ⟨v, ⟨hv, hx⟩, hf, hfv⟩
  · intro ⟨v, ⟨hv, hx⟩, hf, hfv⟩
    refine ⟨?_, (inside_bind hv).mpr ⟨hx, hfv⟩⟩
    rw [value_bind, hv]
    exact hf

/-- After a safe first part the rest decides. -/
theorem Safe.bind_iff {x : Access α} {v : α} (h : x.Safe S v) {f : α → Access β} {w : β} :
    (x >>= f).Safe S w ↔ (f v).Safe S w := by
  rw [safe_bind]
  apply Iff.intro
  · intro ⟨v', hv', hf⟩
    cases Option.some.inj (h.1.symm.trans hv'.1)
    exact hf
  · intro hf
    exact ⟨v, h, hf⟩

theorem little_lt : little mem a n < 256 ^ n := by
  have h := Bytes.val_lt ((List.range' a n).map mem).reverse
  rwa [List.length_reverse, List.length_map, List.length_range'] at h

/-- It does not abort. -/
def Total (x : Access α) : Prop := ∃ v, x.value = some v

theorem total_pure (v : α) : (pure v : Access α).Total := ⟨v, rfl⟩

theorem total_netWord : (netWord mem a n).Total := ⟨network mem a n, rfl⟩

theorem total_bind {x : Access α} {f : α → Access β} (hx : x.Total) (hf : ∀ v, (f v).Total) :
    (x >>= f).Total := by
  obtain ⟨v, hv⟩ := hx
  rw [bind_of_value f hv]
  exact hf v

theorem holds_append {bs cs : List UInt8} :
    Holds mem a (bs ++ cs) ↔ Holds mem a bs ∧ Holds mem (a + bs.length) cs := by
  unfold Holds
  rw [List.length_append, ← List.range'_append_1, List.map_append]
  apply Iff.intro
  · intro h
    exact List.append_inj h (by simp)
  · intro ⟨h, h'⟩
    rw [h, h']

theorem little_of_holds {bs : List UInt8} (h : Holds mem a bs) :
    little mem a bs.length = Bytes.val bs.reverse := congrArg (fun l : List UInt8 => Bytes.val l.reverse) h

theorem val_le16 (h : n < 256 ^ 2) : Bytes.val (le16 n).reverse = n := by
  have hlo : (UInt8.ofNat n).toNat = n % 256 := UInt8.toNat_ofNat'
  have hhi : (UInt8.ofNat (n / 256)).toNat = n / 256 % 256 := UInt8.toNat_ofNat'
  simp only [le16, List.reverse_cons, List.reverse_nil, List.nil_append, List.cons_append,
    Bytes.val_cons, Bytes.val_nil, List.length_cons, List.length_nil, hlo, hhi]
  omega

theorem little_le16 (h : n < 256 ^ 2) (hm : Holds mem a (le16 n)) : little mem a 2 = n :=
  (little_of_holds hm).trans (val_le16 h)

end Access
