/-!
# Tables

A table maps keys to values and remembers the order in which its keys first came. Setting
a key that is present changes its value in place; a new key goes to the end. A table is
known through `get?`, and every operation has one law that says what it does to `get?`.
-/

namespace AssemblySemantics

/-- A map from keys to values that keeps its keys in the order of first insertion. -/
structure Table (α β : Type) where
  entries : List (α × β)
deriving DecidableEq

namespace Table

variable {α β : Type}

instance : EmptyCollection (Table α β) := ⟨⟨[]⟩⟩

instance : Inhabited (Table α β) := ⟨∅⟩

/-- The keys in the order of first insertion. -/
def keys (t : Table α β) : List α := t.entries.map Prod.fst

/-- The number of keys. -/
def size (t : Table α β) : Nat := t.entries.length

variable [DecidableEq α]

/-- The value of the first entry of a key. -/
def find (k : α) : List (α × β) → Option β
  | [] => none
  | (key, value) :: rest => if key = k then some value else find k rest

/-- Puts a value at the first entry of a key, or at the end when there is none. -/
def put (k : α) (v : β) : List (α × β) → List (α × β)
  | [] => [(k, v)]
  | (key, value) :: rest => if key = k then (k, v) :: rest else (key, value) :: put k v rest

/-- The value that the table holds for a key. -/
def get? (t : Table α β) (k : α) : Option β := find k t.entries

/-- The value that the table holds for a key, or a given value when it holds none. -/
def getD (t : Table α β) (k : α) (fallback : β) : β := (t.get? k).getD fallback

/-- Whether the table holds a value for a key. -/
def contains (t : Table α β) (k : α) : Bool := (t.get? k).isSome

/-- The table with a value set for a key. -/
def set (t : Table α β) (k : α) (v : β) : Table α β := ⟨put k v t.entries⟩

/-- The table without a key. -/
def erase (t : Table α β) (k : α) : Table α β := ⟨t.entries.filter fun e => e.1 ≠ k⟩

/-- Whether two tables hold the same value for every key, in whatever order. -/
def agrees [DecidableEq β] (t u : Table α β) : Bool :=
  t.size = u.size && t.entries.all fun e => u.get? e.1 = some e.2

/-- The table made by setting the given entries one after the other. -/
def ofList (entries : List (α × β)) : Table α β :=
  entries.foldl (fun t e => t.set e.1 e.2) ∅

@[simp]
theorem get?_empty (k : α) :
  (∅ : Table α β).get? k = none
  := rfl

theorem find_put (k j : α) (v : β) (entries : List (α × β)) :
  find j (put k v entries) = if k = j then some v else find j entries
  := by
  induction entries with
  | nil => simp [put, find]
  | cons e rest ih =>
    obtain ⟨key, value⟩ := e
    by_cases h : key = k
    · subst h
      by_cases hj : key = j <;> simp [put, find, hj]
    · by_cases hj : key = j
      · subst hj
        simp [put, find, h, Ne.symm h]
      · simp [put, find, h, hj, ih]

/-- Setting a key changes what the table holds for that key, and nothing else. -/
theorem get?_set (t : Table α β) (k j : α) (v : β) :
  (t.set k v).get? j = if k = j then some v else t.get? j
  := find_put k j v t.entries

@[simp]
theorem get?_set_self (t : Table α β) (k : α) (v : β) :
  (t.set k v).get? k = some v
  := by
  simp [get?_set]

theorem put_put (k : α) (v w : β) (entries : List (α × β)) :
  put k v (put k w entries) = put k v entries
  := by
  induction entries with
  | nil => simp [put]
  | cons e rest ih =>
    obtain ⟨key, value⟩ := e
    by_cases h : key = k <;> simp [put, h, ih]

/-- Of two values set for one key the second one counts. -/
theorem set_set (t : Table α β) (k : α) (v w : β) :
  (t.set k w).set k v = t.set k v
  := congrArg Table.mk (put_put k v w t.entries)

theorem put_of_find {k : α} {v : β} {entries : List (α × β)} (h : find k entries = some v) :
  put k v entries = entries
  := by
  induction entries with
  | nil => cases h
  | cons e rest ih =>
    obtain ⟨key, value⟩ := e
    by_cases hk : key = k
    · obtain rfl : value = v := by simpa [find, hk] using h
      simp [put, hk]
    · simp only [find, hk, if_false] at h
      simp [put, hk, ih h]

/-- Setting the value that a key has already changes nothing. -/
theorem set_of_get? {t : Table α β} {k : α} {v : β} (h : t.get? k = some v) :
  t.set k v = t
  := congrArg Table.mk (put_of_find h)

/-- Erasing a key leaves nothing for that key, and changes nothing else. -/
theorem get?_erase (t : Table α β) (k j : α) :
  (t.erase k).get? j = if k = j then none else t.get? j
  := by
  obtain ⟨entries⟩ := t
  simp only [erase, get?]
  induction entries with
  | nil => simp [find]
  | cons e rest ih =>
    obtain ⟨key, value⟩ := e
    by_cases h : key = k
    · subst h
      by_cases hj : key = j
      · simpa [find, hj] using ih
      · simpa [find, hj] using ih
    · by_cases hj : key = j
      · subst hj
        simp [find, h, Ne.symm h]
      · simpa [find, h, hj] using ih

@[simp]
theorem get?_erase_self (t : Table α β) (k : α) :
  (t.erase k).get? k = none
  := by
  simp [get?_erase]

/-- Setting what a function gives for listed keys. -/
theorem get?_foldl_set (f : α → β) (listed : List α) (t : Table α β) (k : α) :
  ((listed.map fun x => (x, f x)).foldl (fun t e => t.set e.1 e.2) t).get? k =
    if k ∈ listed then some (f k) else t.get? k
  := by
  induction listed generalizing t with
  | nil => simp
  | cons x listed ih =>
    rw [List.map_cons, List.foldl_cons, ih, get?_set]
    by_cases hx : x = k
    · simp [hx]
    · simp [hx, Ne.symm hx]

/-- A table of what a function gives for listed keys. -/
theorem get?_ofList_map (f : α → β) (listed : List α) (k : α) :
  (ofList (listed.map fun x => (x, f x))).get? k = if k ∈ listed then some (f k) else none
  := get?_foldl_set f listed ∅ k

/-- Changing the values of a table and nothing else. -/
theorem get?_map_values {γ : Type} (f : β → γ) (t : Table α β) (k : α) :
  (⟨t.entries.map fun e => (e.1, f e.2)⟩ : Table α γ).get? k = (t.get? k).map f
  := by
  obtain ⟨entries⟩ := t
  simp only [get?]
  induction entries with
  | nil => rfl
  | cons e rest ih =>
    obtain ⟨key, value⟩ := e
    by_cases h : key = k <;> simp [find, h, ih]

theorem map_put {γ : Type} (f : β → γ) (k : α) (v : β) (entries : List (α × β)) :
  (put k v entries).map (fun e => (e.1, f e.2)) = put k (f v) (entries.map fun e => (e.1, f e.2))
  := by
  induction entries with
  | nil => rfl
  | cons e rest ih =>
    obtain ⟨key, value⟩ := e
    by_cases h : key = k <;> simp [put, h, ih]

theorem find_isSome_iff (k : α) (entries : List (α × β)) :
  (find k entries).isSome = true ↔ k ∈ entries.map Prod.fst
  := by
  induction entries with
  | nil => simp [find]
  | cons e rest ih =>
    obtain ⟨key, value⟩ := e
    by_cases h : key = k
    · simp [find, h]
    · simp [find, h, ih, Ne.symm h]

/-- The keys are exactly those for which the table holds a value. -/
theorem contains_iff_mem_keys (t : Table α β) (k : α) :
  t.contains k = true ↔ k ∈ t.keys
  := find_isSome_iff k t.entries

theorem map_fst_put (k : α) (v : β) (entries : List (α × β)) :
  (put k v entries).map Prod.fst =
    if k ∈ entries.map Prod.fst then entries.map Prod.fst else entries.map Prod.fst ++ [k]
  := by
  induction entries with
  | nil => simp [put]
  | cons e rest ih =>
    obtain ⟨key, value⟩ := e
    by_cases h : key = k
    · simp [put, h]
    · simp only [put, h, if_false, List.map_cons, ih, List.mem_cons, Ne.symm h, false_or]
      split <;> simp

/-- Setting a key adds it at the end, unless it is there already. -/
theorem keys_set (t : Table α β) (k : α) (v : β) :
  (t.set k v).keys = if k ∈ t.keys then t.keys else t.keys ++ [k]
  := map_fst_put k v t.entries

end Table

end AssemblySemantics
