import LogosCore.Acceptance
import LogosCore.Agreement
import LogosCore.Reproposal
import LogosCore.TokenSupply
import LogosCore.Backing
import LogosCore.LiabilityIndex
import LogosCore.PowerSafety
import LogosCore.PowerHistory
import LogosCore.DeadPeriod
import LogosCore.Receives
import LogosCore.FeeDistribution
import LogosCore.Solvency
import LogosCore.MicroBuilding
import LogosCore.ArchiveRuns
import LogosCore.StakeFloor
import LogosCore.CacheOrder
import LogosCore.AccountWakeUps
import LogosCore.SupplyGrowth
import LogosCore.TokenSettings
import LogosCore.TokenUsers
import LogosCore.Reservations
import LogosCore.Rejections
import LogosCore.AddressText
import LogosCore.PrimaryTimer
