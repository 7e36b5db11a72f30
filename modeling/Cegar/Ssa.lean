import Cegar.Expr.Vars
import Cegar.Text.Quoted
import Std.Data.ExtTreeMap

/-!
# Numbering of writes

Every write to a variable on a path gets the next index. An `SsaMap` holds the index of the latest
write to each variable written so far; a variable without an entry has index 0.
-/

namespace Cegar

/-- The latest write to a variable. -/
structure Write where
  index : UInt32
  ty : Ty
deriving DecidableEq

structure SsaMap where
  writes : Std.ExtTreeMap String Write
deriving DecidableEq

namespace SsaMap

def empty : SsaMap := ⟨∅⟩

instance : Inhabited SsaMap := ⟨empty⟩

/-- The index of the latest write to `name`. -/
def index (m : SsaMap) (name : String) : UInt32 :=
  match m.writes[name]? with
  | some w => w.index
  | none => 0

/-- Records one more write to `name`; none if the index would no longer fit. -/
def fresh? (m : SsaMap) (name : String) (ty : Ty) : Option (SsaMap × UInt32) :=
  if m.index name + 1 = 0 then none
  else some (⟨m.writes.insert name ⟨m.index name + 1, ty⟩⟩, m.index name + 1)

/-- The latest version of a variable; one that already has an index keeps it. -/
def stamp (m : SsaMap) (v : Var) : Var :=
  match v.index with
  | some _ => v
  | none => { v with index := some (m.index v.name) }

/-- Each variable takes the write of the map with the larger index, the first map's if equal. -/
def merge (m n : SsaMap) : SsaMap :=
  ⟨m.writes ∪ n.writes.filter fun name w => m.index name < w.index⟩

/-- The variables written so far, each in its latest version. -/
def versions (m : SsaMap) : List Var :=
  m.writes.toList.map fun (name, w) => ⟨name, w.ty, some w.index⟩

theorem versions_inj {m n : SsaMap} (h : m.versions = n.versions) : m = n := by
  have hlist : m.writes.toList = n.writes.toList := by
    refine List.map_inj_right ?_ |>.1 h
    rintro ⟨a, ⟨i, s⟩⟩ ⟨b, ⟨j, t⟩⟩ hv
    cases hv; rfl
  exact congrArg mk (Std.ExtTreeMap.ext_toList (.of_eq hlist))

def text (m : SsaMap) : String :=
  let entries := m.writes.toList.map fun (name, w) =>
    Quoted.encode name ++ ": " ++ Nat.repr w.index.toNat
  "\x7b" ++ ", ".intercalate entries ++ "\x7d"

end SsaMap

/-- The expression over the latest versions of its variables. -/
def Expr.indexed (e : Expr) (ssa : SsaMap) : Expr := e.mapVars ssa.stamp

end Cegar
