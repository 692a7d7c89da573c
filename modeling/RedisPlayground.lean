import RedisPlayground.Memory.Bytes
import RedisPlayground.Memory.Heap
import RedisPlayground.Memory.Runs
import RedisPlayground.Memory.Objects
import RedisPlayground.Memory.Links
import RedisPlayground.Spec.Zmalloc
import RedisPlayground.Spec.Adlist
import RedisPlayground.Spec.Dict
import RedisPlayground.Spec.Sds
import RedisPlayground.Proofs.Blocks
import RedisPlayground.Proofs.Cells
import RedisPlayground.Proofs.Accounting
import RedisPlayground.Proofs.ZmallocRuns
import RedisPlayground.Proofs.Lists
import RedisPlayground.Proofs.ListRuns
import RedisPlayground.Proofs.ListMethods
import RedisPlayground.Proofs.ListCopy
import RedisPlayground.Proofs.ListLeaks
import RedisPlayground.Proofs.Strings
import RedisPlayground.Proofs.StringRuns
import RedisPlayground.Proofs.Terminators
import RedisPlayground.Proofs.TerminatorRuns
import RedisPlayground.Memory.Buckets
import RedisPlayground.Proofs.Dicts
import RedisPlayground.Proofs.DictRuns
import RedisPlayground.Proofs.DictLookups
import RedisPlayground.Proofs.DictTables
import RedisPlayground.Proofs.DictCounts
import RedisPlayground.Proofs.DictOrphans
import RedisPlayground.Proofs.Compare
import RedisPlayground.Proofs.Ranges
import RedisPlayground.Memory.Margins
import RedisPlayground.Proofs.Trims
import RedisPlayground.Proofs.Histories
import RedisPlayground.Proofs.ListBooks
import RedisPlayground.Proofs.Owners
import RedisPlayground.Proofs.ListDups
import RedisPlayground.Proofs.DupFailures
import RedisPlayground.Proofs.Iteration
import RedisPlayground.Proofs.Sizes
import RedisPlayground.Proofs.TableSizes
import RedisPlayground.Proofs.Probes
import RedisPlayground.Proofs.Searches
import RedisPlayground.Proofs.DictReleases
import RedisPlayground.Memory.Tokens
import RedisPlayground.Proofs.DoubleFrees
import RedisPlayground.Memory.Mixing
import RedisPlayground.Memory.Peeks
import RedisPlayground.Spec.Hash
import RedisPlayground.Proofs.Murmur
import RedisPlayground.Proofs.MurmurReads
import RedisPlayground.Proofs.Hashes
import RedisPlayground.Proofs.StringKeys
import RedisPlayground.Memory.Components
import RedisPlayground.Proofs.StringCuts
import RedisPlayground.Proofs.StringClients
import RedisPlayground.Proofs.DictClients
import RedisPlayground.Proofs.BlockClients
import RedisPlayground.Proofs.OneHeap
import RedisPlayground.Memory.Growth
import RedisPlayground.Proofs.Growth
import RedisPlayground.Proofs.GrowthRuns
import RedisPlayground.Proofs.DictExpandReleases
import RedisPlayground.Proofs.DictExpandLookups
import RedisPlayground.Proofs.SelfAppends
import RedisPlayground.Memory.Callers
import RedisPlayground.Proofs.StringPrograms
