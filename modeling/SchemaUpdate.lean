import SchemaUpdate.KVolve.Connect
import SchemaUpdate.KVolve.Dispatch
import SchemaUpdate.KVolve.Isolation
import SchemaUpdate.KVolve.MultiKey
import SchemaUpdate.KVolve.Pairs
import SchemaUpdate.KVolve.KeyChange
import SchemaUpdate.KVolve.Counters
import SchemaUpdate.KVolve.Watchers
import SchemaUpdate.KVolve.Buffers
import SchemaUpdate.Lur.Conditional
import SchemaUpdate.Lur.Unseen
import SchemaUpdate.Lur.Linear
import SchemaUpdate.Lur.Parties
import SchemaUpdate.Lur.DslFile
import SchemaUpdate.Lur.Killing
import SchemaUpdate.Lur.Composed
import SchemaUpdate.Lur.Generated
import SchemaUpdate.Lur.Globs
