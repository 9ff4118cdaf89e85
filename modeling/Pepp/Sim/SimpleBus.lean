import Pepp.Sim.AddressTranslation

/-!
# The simple bus

A bus is configured with mappings of its addresses to targets, which it enters
in its translation map in their order.
-/

namespace Pepp

open AddressTranslationMap

/-- `Configuration::Mapping`, with its target resolved. -/
structure BusMapping where
  target : U8
  access : U8
  source : AddressSpan
  targetOffset : Address

namespace BusMapping

/-- `from_point_size`. -/
def targetSpan (self : BusMapping) : AddressSpan :=
  ⟨self.targetOffset, self.targetOffset + BitVec.ofNat 32 self.source.sizeExclusive⟩

def node (self : BusMapping) : Node U8 := ⟨self.target, self.source, self.targetSpan, self.access⟩

end BusMapping

/-- `addrs` carries the access rights of its mappings, which no access looks at. It names a target by the ID that the
target has in the system. -/
structure SimpleBus where
  span : AddressSpan
  addrs : List (Node U8)

/-- Mappings are entered in the order of the configuration. -/
def SimpleBus.initialized (span : AddressSpan) (mappings : List BusMapping) : SimpleBus :=
  ⟨span, mappings.foldl (fun addrs m => insertOrOverwrite addrs m.node) []⟩

end Pepp
