import IntoMarkdown.Lib.OrderedMap

/-! # A directory of hard links

Names refer to inodes, and several names may refer to one: the link count of an
inode is the number of its names. Every operation is one atomic step. -/

namespace IntoMarkdown

inductive Errno where
  | noent | exist
  deriving DecidableEq, Repr

structure Directory (ν : Type*) (κ : Type*) [LinearOrder ν] where
  names : OrderedMap ν Nat
  inodes : List κ

namespace Directory
variable {ν κ : Type*} [LinearOrder ν]

def empty : Directory ν κ := ⟨.empty, []⟩

/-- The inode of a name. -/
def lookup (d : Directory ν κ) (n : ν) : Option Nat := d.names.lookup n

def content (d : Directory ν κ) (i : Nat) : Option κ := d.inodes[i]?

/-- What is read through a name. -/
def read (d : Directory ν κ) (n : ν) : Option κ := (d.lookup n).bind d.content

def linkCount (d : Directory ν κ) (i : Nat) : Nat :=
  (d.names.entries.filter fun e => e.2 = i).length

/-- `open` with `O_CREAT | O_EXCL`. -/
def create (d : Directory ν κ) (n : ν) (blank : κ) : Except Errno (Directory ν κ) :=
  match d.lookup n with
  | some _ => .error .exist
  | none => .ok ⟨d.names.insert n d.inodes.length, d.inodes ++ [blank]⟩

/-- A write to an open file. -/
def write (d : Directory ν κ) (i : Nat) (f : κ → κ) : Directory ν κ :=
  { d with inodes := d.inodes.modify i f }

def link (d : Directory ν κ) (source target : ν) : Except Errno (Directory ν κ) :=
  match d.lookup source with
  | none => .error .noent
  | some i =>
    match d.lookup target with
    | some _ => .error .exist
    | none => .ok { d with names := d.names.insert target i }

def unlink (d : Directory ν κ) (n : ν) : Except Errno (Directory ν κ) :=
  match d.lookup n with
  | none => .error .noent
  | some _ => .ok { d with names := d.names.erase n }

/-- Two names of one inode are both kept. -/
def rename (d : Directory ν κ) (source target : ν) : Except Errno (Directory ν κ) :=
  match d.lookup source with
  | none => .error .noent
  | some i =>
    if d.lookup target = some i then .ok d
    else .ok { d with names := (d.names.erase source).insert target i }

def renameNoReplace (d : Directory ν κ) (source target : ν) : Except Errno (Directory ν κ) :=
  match d.lookup source with
  | none => .error .noent
  | some i =>
    match d.lookup target with
    | some _ => .error .exist
    | none => .ok { d with names := (d.names.erase source).insert target i }

/-! ## Names and link counts -/

@[simp] theorem lookup_empty (n : ν) : (empty : Directory ν κ).lookup n = none := rfl

@[simp] theorem lookup_mk_insert (names : OrderedMap ν Nat) (inodes : List κ) (n m : ν) (i : Nat) :
    (⟨names.insert n i, inodes⟩ : Directory ν κ).lookup m =
      if m = n then some i else names.lookup m :=
  names.lookup_insert n i m

@[simp] theorem lookup_mk_erase (names : OrderedMap ν Nat) (inodes : List κ) (n m : ν) :
    (⟨names.erase n, inodes⟩ : Directory ν κ).lookup m =
      if m = n then none else names.lookup m :=
  names.lookup_erase n m

theorem lookup_def (d : Directory ν κ) (n : ν) : d.names.lookup n = d.lookup n := rfl

@[simp] theorem lookup_write (d : Directory ν κ) (i : Nat) (f : κ → κ) (n : ν) :
    (d.write i f).lookup n = d.lookup n := rfl

theorem mem_entries {d : Directory ν κ} {n : ν} {i : Nat} :
    (n, i) ∈ d.names.entries ↔ d.lookup n = some i :=
  OrderedMap.lookup_eq_some.symm

/-- A write to the newest file. -/
theorem inodes_write_last {d : Directory ν κ} {l : List κ} {x : κ} (h : d.inodes = l ++ [x])
    (f : κ → κ) : (d.write l.length f).inodes = l ++ [f x] := by
  simp only [write, h]
  rw [List.modify_eq_take_cons_drop (by simp)]
  simp

/-- An inode has one link exactly when it has no second name. -/
theorem linkCount_eq_one {d : Directory ν κ} {n : ν} {i : Nat} (h : d.lookup n = some i) :
    d.linkCount i = 1 ↔ ∀ m, d.lookup m = some i → m = n := by
  have hmem : ∀ m, (m, i) ∈ d.names.entries.filter (fun e => e.2 = i) ↔ d.lookup m = some i := by
    intro m
    simp [mem_entries]
  have hall : ∀ e ∈ d.names.entries.filter (fun e => e.2 = i), e.2 = i := by
    intro e he
    simpa using (List.mem_filter.mp he).2
  have hsorted := d.names.sorted.filter fun e => decide (e.2 = i)
  simp only [linkCount]
  generalize d.names.entries.filter (fun e => decide (e.2 = i)) = links at hmem hall hsorted
  constructor
  · intro hone m hm
    obtain ⟨e, rfl⟩ := List.length_eq_one_iff.mp hone
    have h1 := List.mem_singleton.mp ((hmem m).mpr hm)
    have h2 := List.mem_singleton.mp ((hmem n).mpr h)
    rw [← h2] at h1
    exact (Prod.mk.inj h1).1
  · intro huniq
    have hn := (hmem n).mpr h
    match links with
    | [] => simp at hn
    | [e] => rfl
    | e :: e' :: rest =>
      -- two names in strict order are not the same name
      have name : ∀ x ∈ e :: e' :: rest, x.1 = n := by
        intro x hx
        apply huniq
        rw [← hmem, ← hall x hx]
        exact hx
      have hlt := (List.pairwise_cons.mp hsorted).1 e' (by simp)
      rw [name e (by simp), name e' (by simp)] at hlt
      exact absurd hlt (lt_irrefl n)

/-! ## Tidy directories -/

/-- Every file has one name, and every name a file. -/
structure Tidy (d : Directory ν κ) : Prop where
  single : ∀ n m i, d.lookup n = some i → d.lookup m = some i → n = m
  known : ∀ n i, d.lookup n = some i → i < d.inodes.length

theorem Tidy.linkCount {d : Directory ν κ} (h : d.Tidy) {n : ν} {i : Nat}
    (hn : d.lookup n = some i) : d.linkCount i = 1 :=
  (linkCount_eq_one hn).mpr fun m hm => h.single m n i hm hn

theorem tidy_empty : (empty : Directory ν κ).Tidy :=
  ⟨fun n _ i h => by simp at h, fun n i h => by simp at h⟩

/-- A directory with the files of `d`, where no file has gained a name. -/
theorem Tidy.of_injective {d d' : Directory ν κ} (h : d.Tidy) (hinodes : d'.inodes = d.inodes)
    {f : ν → ν} (hf : ∀ n i, d'.lookup n = some i → d.lookup (f n) = some i)
    (hinj : ∀ n m i, d'.lookup n = some i → d'.lookup m = some i → f n = f m → n = m) :
    d'.Tidy where
  single := fun n m i hn hm => hinj n m i hn hm (h.single _ _ i (hf n i hn) (hf m i hm))
  known := by
    intro n i hn
    rw [hinodes]
    exact h.known _ i (hf n i hn)

theorem unlink_ok {d : Directory ν κ} {n : ν} {i : Nat} (hn : d.lookup n = some i) :
    ∃ d', d.unlink n = .ok d' ∧ d'.inodes = d.inodes ∧
      ∀ m, d'.lookup m = if m = n then none else d.lookup m := by
  refine ⟨{ d with names := d.names.erase n }, ?_, rfl, fun m => ?_⟩
  · simp [unlink, hn]
  · simp [lookup_def]

theorem Tidy.unlink {d d' : Directory ν κ} (h : d.Tidy) {n : ν} (hinodes : d'.inodes = d.inodes)
    (hlookup : ∀ m, d'.lookup m = if m = n then none else d.lookup m) : d'.Tidy := by
  have hold : ∀ m i, d'.lookup m = some i → d.lookup m = some i := by
    intro m i hm
    rw [hlookup] at hm
    split at hm
    · cases hm
    · exact hm
  exact h.of_injective hinodes hold fun _ _ _ _ _ he => he

theorem renameNoReplace_ok {d : Directory ν κ} {source target : ν} {i : Nat}
    (hs : d.lookup source = some i) (ht : d.lookup target = none) :
    ∃ d', d.renameNoReplace source target = .ok d' ∧ d'.inodes = d.inodes ∧
      ∀ m, d'.lookup m = if m = target then some i else if m = source then none
        else d.lookup m := by
  refine ⟨{ d with names := (d.names.erase source).insert target i }, ?_, rfl, fun m => ?_⟩
  · simp [renameNoReplace, hs, ht]
  · simp [lookup_def, OrderedMap.lookup_erase]

theorem Tidy.rename {d d' : Directory ν κ} (h : d.Tidy) {source target : ν} {i : Nat}
    (hs : d.lookup source = some i) (hinodes : d'.inodes = d.inodes)
    (hlookup : ∀ m, d'.lookup m = if m = target then some i else if m = source then none
      else d.lookup m) : d'.Tidy := by
  have hold : ∀ m j, d'.lookup m = some j →
      d.lookup (if m = target then source else m) = some j ∧ (m ≠ target → m ≠ source) := by
    intro m j hm
    rw [hlookup] at hm
    by_cases htar : m = target
    · simp only [htar, ↓reduceIte, Option.some.injEq] at hm
      simp [htar, hs, hm]
    · by_cases hsrc : m = source
      · simp only [hsrc, ↓reduceIte] at hm
        split at hm
        · rename_i he
          exact absurd (hsrc.trans he) htar
        · cases hm
      · simp only [htar, hsrc, ↓reduceIte] at hm
        simpa [htar, hsrc] using hm
  refine h.of_injective hinodes (fun m j hm => (hold m j hm).1) fun m m' j hm hm' he => ?_
  have h1 := (hold m j hm).2
  have h2 := (hold m' j hm').2
  by_cases htar : m = target <;> by_cases htar' : m' = target
  · rw [htar, htar']
  · simp only [htar, htar', ↓reduceIte] at he
    exact absurd he.symm (h2 htar')
  · simp only [htar, htar', ↓reduceIte] at he
    exact absurd he (h1 htar)
  · simpa [htar, htar'] using he

end Directory
end IntoMarkdown
