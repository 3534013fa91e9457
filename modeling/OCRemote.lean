import OCRemote.Lib.Machine
import OCRemote.Codec.Lossy
import OCRemote.Codec.RoundTrip
import OCRemote.Codec.Grammar
import OCRemote.Codec.Serialize
import OCRemote.Codec.Convert
import OCRemote.Codec.Decode
import OCRemote.Codec.Identity
import OCRemote.Factory.Item
import OCRemote.Factory.ItemParse
import OCRemote.Factory.Action
import OCRemote.Lib.MaxHeap
import OCRemote.Factory.ItemTable
import OCRemote.Factory.MEStorage
import OCRemote.Factory.ItemIdentity
import OCRemote.Factory.Listing
import OCRemote.Lib.Index
import OCRemote.Factory.ItemIndex
import OCRemote.Factory.Recipe
import OCRemote.Factory.Inventory
import OCRemote.Factory.InventoryCover
import OCRemote.Factory.RecipeExact
import OCRemote.Factory.InventoryPlan
import OCRemote.Process.Demand
import OCRemote.Process.BufferedRejected
import OCRemote.Process.BufferedBudget
import OCRemote.Process.Slotted
import OCRemote.Process.SlottedPlan
import OCRemote.Process.FluidSlotted
import OCRemote.Process.SlottedAgree
import OCRemote.Process.FluidSlottedPlan
import OCRemote.Factory.Reservations
import OCRemote.Factory.StockCounts
import OCRemote.Factory.Storage
import OCRemote.Factory.DepositRounds
import OCRemote.Factory.ChestRun
import OCRemote.Factory.FluidStorage
import OCRemote.Factory.FluidRun
import OCRemote.Factory.Bus
import OCRemote.Factory.ItemBus
import OCRemote.Factory.ItemBusSafety
import OCRemote.Factory.ItemBusProgress
import OCRemote.Factory.ItemBusListing
import OCRemote.Factory.FluidBus
import OCRemote.Factory.FluidMap
import OCRemote.Process.BlockingFluidOutput
import OCRemote.Factory.FluidBusProgress
import OCRemote.Factory.FluidBusDrained
import OCRemote.Lib.Linked
import OCRemote.Server.Registry
import OCRemote.Server.Client
import OCRemote.Server.Pairing
import OCRemote.Server.Watchdog
import OCRemote.Process.Buffered
import OCRemote.Process.Job
import OCRemote.Process.JobRelease
import OCRemote.Process.CraftingGrid
import OCRemote.Process.JobProgress
import OCRemote.Process.Scattering
import OCRemote.Process.ScatteringEven
import OCRemote.Process.JobKinds
import OCRemote.Process.JobBalanced
import OCRemote.Process.JobHeld
import OCRemote.Cycle.World
import OCRemote.Cycle.Slots
import OCRemote.Cycle.Phases
import OCRemote.Cycle.Barrier
import OCRemote.Process.BlockingOutput
import OCRemote.Lib.CachedOutput
import OCRemote.Process.CachedOutputs
import OCRemote.Process.SlottedWidth
import OCRemote.Factory.MEInterface
import OCRemote.Process.ItemCycleRun
import OCRemote.Process.PlasticMixer
import OCRemote.Factory.ReserveEach
import OCRemote.Process.SlottedTotal
import OCRemote.Process.FluidSlottedTotal
import OCRemote.Process.PlanTotal
import OCRemote.Codec.Double
import OCRemote.Codec.TableVec
import OCRemote.Codec.Readers
import OCRemote.Client.Results
import OCRemote.Client.Sequence
import OCRemote.Net.Answered
import OCRemote.Net.Delivery
import OCRemote.Net.Progress
import OCRemote.Client.Requests
import OCRemote.Client.Responses
import OCRemote.Net.Meaning
import OCRemote.Codec.Deserializer
import OCRemote.Process.ManualUi
import OCRemote.Cpp.Inventory
import OCRemote.Cpp.ItemBus
import OCRemote.Cpp.Recipe
import OCRemote.Cpp.Server
import OCRemote.Factory.Backups
import OCRemote.Factory.Compaction
import OCRemote.Server.LoadBalance
