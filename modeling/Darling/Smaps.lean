import Darling.Hexadecimal

/-!
# The text of `/proc/<pid>/smaps`

A mapping is a line like

`5568e1914000-5568e1915000 r--p 00024000 08:01 4861625                    /usr/bin/less`

and the lines of its attributes.
-/

namespace Darling.RegionPath

/-- What a line says; `name` is empty if there is none, and `pad` blanks more than one stand in
front of it. -/
structure MappingFields where
  start : ℕ
  stop : ℕ
  read : Bool
  write : Bool
  exec : Bool
  priv : Bool
  offset : ℕ
  major : ℕ
  minor : ℕ
  ino : ℕ
  pad : ℕ
  name : Bytes
  attributes : List Bytes

def MappingFields.letters (m : MappingFields) : Bytes :=
  [if m.read then 114 else 45, if m.write then 119 else 45, if m.exec then 120 else 45,
    if m.priv then 112 else 115]

def MappingFields.header (m : MappingFields) : Bytes :=
  hex 8 m.start ++ 45 :: (hex 8 m.stop ++ 32 :: (m.letters ++ 32 :: (hex 8 m.offset ++
    32 :: (hex 2 m.major ++ 58 :: (hex 2 m.minor ++ 32 :: (decimal m.ino ++
      (List.replicate (m.pad + 1) 32 ++ m.name)))))))

/-- A mapping the kernel can show.  Its device numbers have 12 and 20 bits. -/
structure Mapping extends MappingFields where
  start_lt : start < stop
  stop_lt : stop < 2 ^ 64
  offset_lt : offset < 2 ^ 64
  major_lt : major < 2 ^ 12
  minor_lt : minor < 2 ^ 20
  ino_lt : ino < 2 ^ 64
  name_ok : (∀ c ∈ name, c ≠ 0 ∧ c ≠ 10) ∧ name.head? ≠ some 32
  header_fits : toMappingFields.header.length ≤ 1022
  attributes_ok : ∀ l ∈ attributes, ∀ c ∈ l, c ≠ 0 ∧ c ≠ 10

def Mapping.Contains (m : Mapping) (a : ℕ) : Prop := m.start ≤ a ∧ a < m.stop

instance (m : Mapping) (a : ℕ) : Decidable (m.Contains a) := inferInstanceAs (Decidable (_ ∧ _))

def Mapping.lines (m : Mapping) : List Bytes := m.header :: m.attributes

def Mapping.protection (m : Mapping) : ℕ :=
  (if m.read then 1 else 0) + (if m.write then 2 else 0) + (if m.exec then 4 else 0)

def Mapping.shareMode (m : Mapping) : ℕ := if m.priv then 2 else 4

def Mapping.device (m : Mapping) : ℕ := m.minor % 256 + 256 * m.major + 2 ^ 20 * (m.minor / 256)

structure Smaps where
  maps : List Mapping
  ordered : maps.Pairwise fun m m' => m.stop ≤ m'.start

def Smaps.text (s : Smaps) : Bytes := s.maps.flatMap fun m => m.lines.flatMap (· ++ [10])

/-- The first mapping that ends above `a`: the one with `a` in it, or else the next. -/
def Smaps.above (s : Smaps) (a : ℕ) : Option Mapping := s.maps.find? (a < ·.stop)

end Darling.RegionPath
