import AlpinoCorpus.CompactHistory
import AlpinoCorpus.FirstRead
import AlpinoCorpus.IndexFormat
import AlpinoCorpus.DzChunkLoad
import AlpinoCorpus.DzWrites
import AlpinoCorpus.DzFlush
import AlpinoCorpus.GzipFile
import AlpinoCorpus.DzOpening
import AlpinoCorpus.WriteFailures
import AlpinoCorpus.BatchWrite
import AlpinoCorpus.FailSafeCopy
import AlpinoCorpus.PathLookup
import AlpinoCorpus.Registration
import AlpinoCorpus.CorpusTree
import AlpinoCorpus.Concatenation
import AlpinoCorpus.InterruptRuns
import AlpinoCorpus.Validation
import AlpinoCorpus.MacroReferences
import AlpinoCorpus.MacroFiles
import AlpinoCorpus.HandleCopies
import AlpinoCorpus.CollectionNames
import AlpinoCorpus.NameOrder
import AlpinoCorpus.DirectoryEntries
import AlpinoCorpus.MultiProgress
import AlpinoCorpus.ListCorpus
import AlpinoCorpus.Opening
import AlpinoCorpus.OpenCorpora
import AlpinoCorpus.ConcurrentUse
import AlpinoCorpus.Conversion
import AlpinoCorpus.InfInt
import AlpinoCorpus.SentenceMatches
import AlpinoCorpus.Transforming
import AlpinoCorpus.CApi
import AlpinoCorpus.Extract
import AlpinoCorpus.Stats
import AlpinoCorpus.RandomAccess
