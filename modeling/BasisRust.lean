import BasisRust.Avatar.AdditionalData
import BasisRust.Avatar.BundleRoundTrip
import BasisRust.Avatar.DeltaRoundTrip
import BasisRust.Avatar.DeltaTotal
import BasisRust.Avatar.GreedyBundles
import BasisRust.Avatar.LazyEager
import BasisRust.Avatar.NewestPose
import BasisRust.Avatar.ReceiverSlices
import BasisRust.Avatar.RepackFields
import BasisRust.Moderation.ListsSafety
import BasisRust.Permissions.SeedingDenies
import BasisRust.Protocol.CompactId
import BasisRust.Server.AdmissionsSafety
import BasisRust.Server.ContentShareLinks
import BasisRust.Server.ImageBandwidth
import BasisRust.Server.ImageCacheRefusal
import BasisRust.Server.ImageCacheReplay
import BasisRust.Server.LastLeaverSafety
import BasisRust.Server.LateJoinSafety
import BasisRust.Server.OrderedLanes
import BasisRust.Server.OwnershipAgreement
import BasisRust.Server.P2pSafety
import BasisRust.Server.PeerTablesSafety
import BasisRust.Server.PermissionViewsSafety
import BasisRust.Server.RegistryAccounting
import BasisRust.Server.ScenePreload
import BasisRust.Server.UploadBudget
import BasisRust.Server.VoiceRecipientsExact
import BasisRust.Storage.DatabaseTracking
import BasisRust.Storage.DefaultLibrarySafety
import BasisRust.Storage.LegacyImportSafety
import BasisRust.Storage.RateLimits
import BasisRust.Transport.AckSafety
import BasisRust.Transport.ClientFragmentsExact
import BasisRust.Transport.ClientWindow
import BasisRust.Transport.DatagramsLossless
import BasisRust.Transport.FragmentAtomicity
import BasisRust.Transport.Inbound
import BasisRust.Transport.MergedWalk
import BasisRust.Transport.MtuDiscovery
import BasisRust.Transport.OrderedAdmission
import BasisRust.Transport.OrderedDelivery
import BasisRust.Transport.PreAuthRate
import BasisRust.Transport.ReadGate
import BasisRust.Transport.ReliableActive
import BasisRust.Transport.ReorderSystem
import BasisRust.Transport.Sequenced
import BasisRust.Transport.Session
import BasisRust.Transport.SharedReceiver
import BasisRust.Transport.UnorderedDelivery
