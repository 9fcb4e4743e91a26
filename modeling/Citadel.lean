import Citadel.Search.Run
import Citadel.Stdio.Memstream
import Citadel.Stdio.Input
import Citadel.Iconv.Session
import Citadel.Number.FormatHex
import Citadel.Thread.KeyRuns
import Citadel.Resolv.Runs
import Citadel.Net.NumericHost
import Citadel.Net.TextForm
import Citadel.Number.Erange
import Citadel.Env.Lookup
import Citadel.Ldso.Lifetimes
import Citadel.Ldso.Tls
import Citadel.Search.Hsearch
import Citadel.Ldso.Symtab
import Citadel.Resolv.Records
import Citadel.Crypt.Crypt
import Citadel.Multibyte.UcharText
import Citadel.Iconv.RoundTrip
import Citadel.Path.Realpath
import Citadel.Regex.Parsed
import Citadel.Exit.Runs
import Citadel.Sort.Sorted
import Citadel.Wordexp.Field
import Citadel.Time.Transitions
import Citadel.Time.Timegm
import Citadel.Time.IsoWeek
import Citadel.Strings.Scan
import Citadel.Ldso.Relr
import Citadel.Dirent
import Citadel.Passwd
import Citadel.Aio
import Citadel.Semaphore
import Citadel.Thread.Barrier
import Citadel.Regex.Backward
import Citadel.Rwlock
