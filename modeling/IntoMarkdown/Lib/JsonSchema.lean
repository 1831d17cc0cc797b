import IntoMarkdown.Lib.JsonCut

/-! # Schemas of JSON values

A schema writes the values of a type as JSON and reads them back. It carries the
proof that it does, and a bound of the nesting that it writes, so that schemas of
lists, options and structures are put together from those of their parts. -/

namespace IntoMarkdown.Lib.Json

structure Schema (α : Type) where
  write : α → Value Nat
  read : Value Nat → Option α
  depth : Nat
  read_write : ∀ a, read (write a) = some a
  depth_write : ∀ a, (write a).depth ≤ depth
  write_ne_null : ∀ a, write a ≠ .null

namespace Schema
variable {α : Type}

def string : Schema String where
  write := .string
  read
    | .string s => some s
    | _ => none
  depth := 0
  read_write _ := rfl
  depth_write _ := Nat.le_refl _
  write_ne_null _ := nofun

def bool : Schema Bool where
  write := .bool
  read
    | .bool b => some b
    | _ => none
  depth := 0
  read_write _ := rfl
  depth_write _ := Nat.le_refl _
  write_ne_null _ := nofun

def uint64 : Schema UInt64 where
  write n := .number n.toNat
  read
    | .number n => if n < 2 ^ 64 then some (UInt64.ofNat n) else none
    | _ => none
  depth := 0
  read_write n := by
    simp [n.toNat_lt]
  depth_write _ := Nat.le_refl _
  write_ne_null _ := nofun

def uint32 : Schema UInt32 where
  write n := .number n.toNat
  read
    | .number n => if n < 2 ^ 32 then some (UInt32.ofNat n) else none
    | _ => none
  depth := 0
  read_write n := by
    simp [n.toNat_lt]
  depth_write _ := Nat.le_refl _
  write_ne_null _ := nofun

/-- A value that may be missing is written as `null`. -/
def option (s : Schema α) : Value Nat → Option (Option α)
  | .null => some none
  | v => (s.read v).map some

def writeOption (s : Schema α) : Option α → Value Nat
  | none => .null
  | some a => s.write a

theorem option_write (s : Schema α) (a : Option α) : s.option (s.writeOption a) = some a := by
  cases a with
  | none => rfl
  | some a =>
    have hne := s.write_ne_null a
    have hread := s.read_write a
    simp only [writeOption]
    cases hw : s.write a with
    | null => exact absurd hw hne
    | _ =>
      rw [hw] at hread
      simp [option, hread]

theorem depth_writeOption (s : Schema α) (a : Option α) : (s.writeOption a).depth ≤ s.depth := by
  cases a with
  | none => exact Nat.zero_le _
  | some a => exact s.depth_write a

theorem mapM_read (s : Schema α) (items : List α) :
    (items.map s.write).mapM s.read = some items := by
  induction items with
  | nil => rfl
  | cons a items ih => simp [List.mapM_cons, s.read_write, ih]

theorem depth_items (s : Schema α) (items : List α) :
    Value.depthItems (items.map s.write) ≤ s.depth := by
  induction items with
  | nil => exact Nat.zero_le _
  | cons a items ih => exact max_le (s.depth_write a) ih

def list (s : Schema α) : Schema (List α) where
  write items := .array (items.map s.write)
  read
    | .array items => items.mapM s.read
    | _ => none
  depth := s.depth + 1
  read_write := s.mapM_read
  depth_write items := Nat.succ_le_succ (s.depth_items items)
  write_ne_null _ := nofun

/-- What is written is read back, with spaces after it. -/
theorem readBytes_spaces (s : Schema α) (a : α) {limit : Nat} (hdepth : s.depth ≤ limit)
    {spaces : List Char} (h : spaces.all isSpace = true) :
    readBytes decimal.read limit (Json.write decimal (s.write a) ++ Utf8.encode spaces) =
      some (s.write a) := by
  rw [readBytes_write decimal_lawful ((s.depth_write a).trans hdepth) h]
  exact congrArg some (Value.map_id _)

theorem readBytes_write (s : Schema α) (a : α) {limit : Nat} (hdepth : s.depth ≤ limit) :
    readBytes decimal.read limit (Json.write decimal (s.write a)) = some (s.write a) := by
  have h := s.readBytes_spaces a hdepth (show [].all isSpace = true from rfl)
  rwa [show Utf8.encode [] = [] from rfl, List.append_nil] at h

end Schema

/-! ## Members of an object -/

namespace Value
variable {α : Type}

theorem depth_object {entries : List (String × Value Nat)} {n : Nat}
    (h : ∀ e ∈ entries, e.2.depth ≤ n) : (Value.object entries).depth ≤ n + 1 := by
  have hentries : depthEntries entries ≤ n := by
    induction entries with
    | nil => exact Nat.zero_le _
    | cons e rest ih =>
      exact max_le (h e (List.mem_cons_self ..)) (ih fun e' he' => h e' (List.mem_cons_of_mem _ he'))
  exact Nat.succ_le_succ hentries

def member (v : Value Nat) (key : String) (s : Schema α) : Option α := (v.get? key).bind s.read

/-- A member that may be missing or `null`. -/
def optional (v : Value Nat) (key : String) (s : Schema α) : Option (Option α) :=
  match v.get? key with
  | none => some none
  | some w => s.option w

/-- A member with a default. -/
def memberOr (v : Value Nat) (key : String) (s : Schema α) (value : α) : Option α :=
  match v.get? key with
  | none => some value
  | some w => s.read w

theorem member_write {v : Value Nat} {key : String} {s : Schema α} {a : α}
    (h : v.get? key = some (s.write a)) : v.member key s = some a := by
  rw [member, h, Option.bind_some, s.read_write]

theorem optional_write {v : Value Nat} {key : String} {s : Schema α} {a : Option α}
    (h : v.get? key = some (s.writeOption a)) : v.optional key s = some a := by
  rw [optional, h]
  exact s.option_write a

theorem memberOr_write {v : Value Nat} {key : String} {s : Schema α} {a value : α}
    (h : v.get? key = some (s.write a)) : v.memberOr key s value = some a := by
  rw [memberOr, h]
  exact s.read_write a

end Value

end IntoMarkdown.Lib.Json
