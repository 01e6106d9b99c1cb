import Netdisk.Bcrypt.Blowfish
import Netdisk.Bcrypt.Crypt
import Netdisk.Bcrypt.Encode
import Netdisk.Bcrypt.Keys
import Netdisk.Bcrypt.Settings
import Netdisk.Bcrypt.Logins
import Netdisk.Bcrypt.Passwords
import Netdisk.Bcrypt.SelfTest
import Netdisk.Bcrypt.Tables
import Netdisk.CanonicalPath
import Netdisk.CdReply
import Netdisk.ClientRuns
import Netdisk.Config
import Netdisk.Descriptors
import Netdisk.DirDetail
import Netdisk.Download
import Netdisk.FailedInserts
import Netdisk.Framing
import Netdisk.HandBack
import Netdisk.Isolation
import Netdisk.Lib.Feistel
import Netdisk.Lib.Packed
import Netdisk.Lib.Sextets
import Netdisk.Lib.Words
import Netdisk.Lengths
import Netdisk.LogFiles
import Netdisk.LogInit
import Netdisk.NewDirectories
import Netdisk.NullAccess
import Netdisk.Parents
import Netdisk.PutsGets
import Netdisk.FileSystem.Runs
import Netdisk.Statements
import Netdisk.PathResolution
import Netdisk.Registration
import Netdisk.Remove
import Netdisk.RemoveSpace
import Netdisk.ReplyTokens
import Netdisk.RequestBuffers
import Netdisk.SimplifyBounds
import Netdisk.StoredFiles
import Netdisk.TrueReplies
import Netdisk.UploadIntegrity
import Netdisk.TaskQueueRuns
import Netdisk.Shutdown
import Netdisk.PoolConservation
import Netdisk.QueueSelection
import Netdisk.TypedLine
import Netdisk.Uniqueness
import Netdisk.WorkPath
