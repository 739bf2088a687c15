import RealmGuard.AddAfterMerge
import RealmGuard.ContextRuns
import RealmGuard.EnvelopeBytes
import RealmGuard.FieldRuns
import RealmGuard.HlcDrift
import RealmGuard.HlcRuns
import RealmGuard.KeySeparation
import RealmGuard.MetadataRuns
import RealmGuard.PairingRuns
import RealmGuard.SyncFormat
import RealmGuard.Lib.Later
import RealmGuard.NothingBack
import RealmGuard.AnyOrder
import RealmGuard.BuildProfiles
import RealmGuard.ByteSync
import RealmGuard.FieldClocks
import RealmGuard.Crypto.VaultKeys
import RealmGuard.Keyring
import RealmGuard.Lib.Secrecy
import RealmGuard.ServerView
import RealmGuard.DecryptedVault
import RealmGuard.Accounts
import RealmGuard.Crypto.DeviceKey
import RealmGuard.DeviceRegistry
import RealmGuard.Lib.Numeral
import RealmGuard.SasDigits
import RealmGuard.Lib.CompactedLog
import RealmGuard.LogCompaction
import RealmGuard.DeployedVault
import RealmGuard.ForgedClocks
