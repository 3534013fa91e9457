import Mathlib.Algebra.Order.Ring.Int
import OCRemote.Codec.Convert

/-! Items, stacks and filters (`item.rs`). The factory works over any type of items of which
it can read the label, the name and the size of a full stack. -/

namespace OCRemote

class ItemClass (ι : Type) where
  label : ι → String
  name : ι → String
  maxSize : ι → ℤ

structure Item (ν : Type) where
  label : String
  name : String
  damage : ℤ
  maxDamage : ℤ
  maxSize : ℤ
  hasTag : Bool
  others : Table ν
  deriving DecidableEq

instance (ν : Type) : ItemClass (Item ν) := ⟨Item.label, Item.name, Item.maxSize⟩

structure ItemStack (ι : Type) where
  item : ι
  size : ℤ
  deriving DecidableEq

/-- Two items for examples. -/
def iron : Item ℤ := ⟨"Iron", "iron", 0, 0, 64, false, []⟩

def gold : Item ℤ := ⟨"Gold", "gold", 0, 0, 64, false, []⟩

inductive Filter (ι : Type) where
  | Label (label : String)
  | Name (name : String)
  | Both (label name : String)
  | Custom (desc : String) (func : ι → Bool)

def Filter.apply {ι : Type} [ItemClass ι] : Filter ι → ι → Bool
  | .Label label, item => ItemClass.label item == label
  | .Name name, item => ItemClass.name item == name
  | .Both label name, item => ItemClass.label item == label && ItemClass.name item == name
  | .Custom _ func, item => func item

end OCRemote
