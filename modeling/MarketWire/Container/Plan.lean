import MarketWire.Container.FieldList
import MarketWire.Container.ElementList
import MarketWire.Container.Series
import MarketWire.Container.Vector
import MarketWire.Container.FilterList
import MarketWire.Container.ItemArray

/-! Plans of containers of any type, and the steps that all of them share. -/

set_option autoImplicit false

namespace MarketWire

inductive ContainerPlan where
  | fieldList (plan : FieldList.Plan)
  | elementList (plan : ElementList.Plan)
  | series (plan : Table.Plan)
  | vector (plan : Table.Plan)
  | filterList (plan : FilterList.Plan)
  | itemArray (plan : ItemArray.Plan)

namespace ContainerPlan

def start : ContainerPlan → Drafting Unit
  | .fieldList plan => FieldList.start plan
  | .elementList plan => ElementList.start plan
  | .series plan | .vector plan => Table.start plan
  | .filterList plan => FilterList.start plan
  | .itemArray plan => ItemArray.start plan

/-- Close the open entry. The items of arrays are never open. -/
def closeEntry (commit : Bool) : ContainerPlan → Drafting Unit
  | .fieldList _ => FieldList.closeEntry commit
  | .elementList _ => ElementList.closeEntry commit
  | .series _ | .vector _ => Table.closeEntry commit
  | .filterList _ => FilterList.closeEntry commit
  | .itemArray _ => Drafting.closeEntry ItemArray.wording commit

def finish (commit : Bool) : ContainerPlan → Drafting Unit
  | .fieldList _ => FieldList.finish commit
  | .elementList _ => ElementList.finish commit
  | .series _ | .vector _ => Table.finish commit
  | .filterList _ => FilterList.finish commit
  | .itemArray _ => ItemArray.finish commit

end ContainerPlan

end MarketWire
