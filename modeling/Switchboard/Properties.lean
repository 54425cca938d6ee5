/-
  Switchboard.Properties — an ordered set of named texts.

  The entries are sorted by key, each key once, so two sets with the same values are equal.
  Texts compare by code point, which is the order of their UTF-8 bytes.
  `get?_insert` and `get?_remove` say what an update does to every key.

  A registration's properties carry two keys that the registry owns: `objectClass`, the name
  the service was published under, and `service.id`, its id in decimal. `stamp` overwrites
  both.
-/

namespace Switchboard

abbrev SortedByKey (es : List (String × String)) : Prop := es.Pairwise fun a b => a.1 < b.1

structure Properties where
  entries : List (String × String)
  sorted : SortedByKey entries

namespace Properties

def empty : Properties := ⟨[], .nil⟩

instance : Inhabited Properties := ⟨empty⟩

instance : DecidableEq Properties := fun p q =>
  match decEq p.entries q.entries with
  | isTrue h => isTrue (by cases p; cases q; cases h; rfl)
  | isFalse h => isFalse fun e => h (congrArg entries e)

def toList (p : Properties) : List (String × String) := p.entries

def size (p : Properties) : Nat := p.entries.length

def isEmpty (p : Properties) : Bool := p.entries.isEmpty

def get? (p : Properties) (key : String) : Option String := p.entries.lookup key

def contains (p : Properties) (key : String) : Bool := (p.get? key).isSome

/-- Puts an entry in its place among sorted ones; it replaces the one of the same key. -/
def insertEntry (key value : String) : List (String × String) → List (String × String)
  | [] => [(key, value)]
  | e :: es =>
    if key < e.1 then (key, value) :: e :: es
    else if e.1 < key then e :: insertEntry key value es
    else (key, value) :: es

theorem mem_insertEntry {key value : String} {e : String × String} {es : List (String × String)}
    (h : e ∈ insertEntry key value es) : e = (key, value) ∨ e ∈ es := by
  induction es with
  | nil => simpa [insertEntry] using h
  | cons f fs ih =>
    simp only [insertEntry] at h
    split at h
    · simpa using h
    · split at h
      · rcases List.mem_cons.1 h with h | h
        · exact .inr (h ▸ List.mem_cons_self)
        · exact (ih h).imp id (List.mem_cons_of_mem _)
      · rcases List.mem_cons.1 h with h | h
        · exact .inl h
        · exact .inr (List.mem_cons_of_mem _ h)

/-- Of two different texts one comes first. -/
theorem eq_of_not_lt {a b : String} (h : ¬ a < b) (h' : ¬ b < a) : a = b :=
  String.le_antisymm (String.not_lt.1 h') (String.not_lt.1 h)

theorem sorted_insertEntry {key value : String} {es : List (String × String)} (h : SortedByKey es) :
    SortedByKey (insertEntry key value es) := by
  induction es with
  | nil => simp [insertEntry, SortedByKey]
  | cons e es ih =>
    obtain ⟨hlt, hs⟩ := List.pairwise_cons.1 h
    simp only [insertEntry]
    split
    case isTrue hk =>
      refine List.pairwise_cons.2 ⟨fun f hf => ?_, h⟩
      rcases List.mem_cons.1 hf with rfl | hf
      · exact hk
      · exact String.lt_trans hk (hlt f hf)
    case isFalse hk =>
      split
      case isTrue hk' =>
        refine List.pairwise_cons.2 ⟨fun f hf => ?_, ih hs⟩
        rcases mem_insertEntry hf with rfl | hf
        · exact hk'
        · exact hlt f hf
      case isFalse hk' =>
        have : e.1 = key := eq_of_not_lt hk' hk
        exact List.pairwise_cons.2 ⟨fun f hf => this ▸ hlt f hf, hs⟩

def insert (p : Properties) (key value : String) : Properties :=
  ⟨insertEntry key value p.entries, sorted_insertEntry p.sorted⟩

def remove (p : Properties) (key : String) : Properties :=
  ⟨p.entries.filter fun e => e.1 != key, p.sorted.filter _⟩

/-- Of several entries of one key the last counts. -/
def ofList (es : List (String × String)) : Properties :=
  es.foldl (fun p e => p.insert e.1 e.2) empty

/-! ## The keys that the registry owns -/

def nameKey : String := "objectClass"

def idKey : String := "service.id"

def stamp (p : Properties) (name : String) (id : Nat) : Properties :=
  (p.insert nameKey name).insert idKey (toString id)

/-! ## What updates do to a key -/

theorem lookup_cons_eq (k : String) (e : String × String) (es : List (String × String)) :
    (e :: es).lookup k = if k = e.1 then some e.2 else es.lookup k := by
  obtain ⟨j, v⟩ := e
  by_cases h : k = j <;> simp [List.lookup_cons, h, beq_eq_false_iff_ne.2]

theorem lookup_insertEntry (key value k : String) (es : List (String × String)) :
    (insertEntry key value es).lookup k = if k = key then some value else es.lookup k := by
  induction es with
  | nil => simp [insertEntry]
  | cons e es ih =>
    simp only [insertEntry]
    split
    case isTrue => exact lookup_cons_eq ..
    case isFalse hk =>
      split
      case isTrue hlt =>
        have hne : e.1 ≠ key := fun h => String.lt_irrefl _ (h ▸ hlt)
        rw [lookup_cons_eq, lookup_cons_eq, ih]
        by_cases h : k = e.1 <;> simp [h, hne]
      case isFalse hk' =>
        have : e.1 = key := eq_of_not_lt hk' hk
        rw [lookup_cons_eq, lookup_cons_eq, this]
        by_cases h : k = key <;> simp [h]

@[simp] theorem get?_empty (k : String) : empty.get? k = none := rfl

theorem get?_insert (p : Properties) (key value k : String) :
    (p.insert key value).get? k = if k = key then some value else p.get? k :=
  lookup_insertEntry key value k p.entries

theorem get?_remove (p : Properties) (key k : String) :
    (p.remove key).get? k = if k = key then none else p.get? k := by
  show (p.entries.filter fun e => e.1 != key).lookup k = if k = key then none else p.entries.lookup k
  induction p.entries with
  | nil => simp
  | cons e es ih =>
    by_cases h : e.1 = key
    · rw [List.filter_cons_of_neg (by simp [h]), lookup_cons_eq, ih, h]
      by_cases hk : k = key <;> simp [hk]
    · rw [List.filter_cons_of_pos (by simp [h]), lookup_cons_eq, lookup_cons_eq, ih]
      by_cases hk : k = e.1 <;> simp [hk, h]

/-- The name a stamped set shows. -/
theorem get?_nameKey_stamp (p : Properties) (name : String) (id : Nat) :
    (p.stamp name id).get? nameKey = some name := by
  simp [stamp, get?_insert, nameKey, idKey]

/-- The id a stamped set shows. -/
theorem get?_idKey_stamp (p : Properties) (name : String) (id : Nat) :
    (p.stamp name id).get? idKey = some (toString id) := by
  simp [stamp, get?_insert]

/-- A stamp leaves every other key alone. -/
theorem get?_stamp_of_ne (p : Properties) (name : String) (id : Nat) {k : String}
    (hn : k ≠ nameKey) (hi : k ≠ idKey) : (p.stamp name id).get? k = p.get? k := by
  simp [stamp, get?_insert, hn, hi]

/-- What a stamped set shows. -/
theorem get?_stamp (p : Properties) (name : String) (id : Nat) (k : String) : (p.stamp name id).get? k =
    if k = nameKey then some name else if k = idKey then some (toString id) else p.get? k := by
  by_cases hn : k = nameKey
  · rw [if_pos hn, hn, get?_nameKey_stamp]
  · by_cases hi : k = idKey
    · rw [if_neg hn, if_pos hi, hi, get?_idKey_stamp]
    · rw [if_neg hn, if_neg hi, get?_stamp_of_ne p name id hn hi]

end Properties

end Switchboard
