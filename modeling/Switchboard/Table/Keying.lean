/-
  Switchboard.Table.Keying — how a table tells its keys apart.

  A keying gives every key a raw 32-bit hash, says which keys address the same entry, and
  may declare keys absent. Nothing is assumed of it: a table does something definite under
  any keying, and behaves as a map under a lawful one (`Keying.Lawful`).

  A table never uses the raw hash: it spreads it first (`spread`), so that hashes which
  differ in few bits still fall into different buckets. An absent key hashes to zero
  (`hashOf`), which puts it into the first bucket whatever the capacity.
-/

namespace Switchboard

structure Keying (κ : Type) where
  hash : κ → UInt32
  /-- Do both keys address one entry? The stored key comes first. -/
  same : κ → κ → Bool
  /-- Is this the key that stands for none? -/
  absent : κ → Bool := fun _ => false

def rotateRight (h k : UInt32) : UInt32 := (h >>> k) ||| (h <<< (32 - k))

/-- Spreads a hash with little entropy over the low bits, which select a bucket. -/
def spread (h : UInt32) : UInt32 :=
  let h := h + ~~~(h <<< 9)
  let h := h ^^^ rotateRight h 14
  let h := h + (h <<< 4)
  h ^^^ rotateRight h 10

namespace Keying

variable {κ : Type}

def hashOf (s : Keying κ) (k : κ) : UInt32 :=
  if s.absent k then 0 else spread (s.hash k)

/-- What makes a table a map: sameness is an equivalence, and keys that are the same agree
    in hash and in absence. -/
structure Lawful (s : Keying κ) : Prop where
  refl : ∀ k, s.same k k = true
  symm : ∀ {j k}, s.same j k = true → s.same k j = true
  trans : ∀ {i j k}, s.same i j = true → s.same j k = true → s.same i k = true
  hash : ∀ {j k}, s.same j k = true → s.hash j = s.hash k
  absent : ∀ {j k}, s.same j k = true → s.absent j = s.absent k

/-- Lifts a keying to optional keys: `none` is the absent key and the same as itself only. -/
def optional (s : Keying κ) : Keying (Option κ) where
  hash
    | some k => s.hash k
    | none => 0
  same
    | some j, some k => s.same j k
    | none, none => true
    | _, _ => false
  absent := Option.isNone

theorem Lawful.hashOf_eq {s : Keying κ} (hs : s.Lawful) {j k : κ} (h : s.same j k = true) :
    s.hashOf j = s.hashOf k := by
  simp [hashOf, hs.hash h, hs.absent h]

theorem hashOf_of_absent {s : Keying κ} {k : κ} (h : s.absent k = true) : s.hashOf k = 0 := by
  simp [hashOf, h]

@[simp] theorem hashOf_optional_none (s : Keying κ) : s.optional.hashOf none = 0 := rfl

end Keying

end Switchboard
