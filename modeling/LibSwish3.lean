import LibSwish3.Lib.Runs
import LibSwish3.Lib.Tables
import LibSwish3.Lib.Places
import LibSwish3.Lib.Heaps
import LibSwish3.Lib.Related
import LibSwish3.CString
import LibSwish3.Utf8
import LibSwish3.StringList
import LibSwish3.ConfigMerge
import LibSwish3.Header
import LibSwish3.HeaderRules
import LibSwish3.Flags
import LibSwish3.UniqueIds
import LibSwish3.NamedBuffer
import LibSwish3.TokenStore
import LibSwish3.Parser
import LibSwish3.Sax
import LibSwish3.Content
import LibSwish3.Accumulation
import LibSwish3.TokenizerRules
import LibSwish3.TokenizerAgreement
import LibSwish3.TokenPositions
import LibSwish3.WordCount
import LibSwish3.IncludedText
import LibSwish3.Nested
import LibSwish3.PropertyBuffers
import LibSwish3.Aliases
import LibSwish3.IncludeCalls
import LibSwish3.Messages
import LibSwish3.AsciiWords
import LibSwish3.Utf8Words
import LibSwish3.StringLists
import LibSwish3.ListOwners
import LibSwish3.Sections
import LibSwish3.AppendCounts
import LibSwish3.CurrentTag
import LibSwish3.MetaCase
import LibSwish3.HeadBounds
import LibSwish3.HeaderFields
import LibSwish3.IgnoreContent
import LibSwish3.AttributeArray
import LibSwish3.AttributeOrder
import LibSwish3.EndTags
import LibSwish3.AttributeValue
import LibSwish3.VerbatimText
import LibSwish3.Numerals
import LibSwish3.HeaderWrite
import LibSwish3.MergedConfigs
import LibSwish3.RoundTrip
import LibSwish3.WordBuffer
import LibSwish3.WordLines
import LibSwish3.SortStrings
import LibSwish3.EntryAttributes
import LibSwish3.AliasLists
import LibSwish3.BufferValues
import LibSwish3.Slurp
import LibSwish3.Escapes
import LibSwish3.ExactIntegers
import LibSwish3.TokenizerStrip
import LibSwish3.Utf8Cursors
import LibSwish3.OutputFormat
import LibSwish3.DomStack
import LibSwish3.MetaRefs
import LibSwish3.ParserRefs
import LibSwish3.Crawl
import LibSwish3.CommandLine
import LibSwish3.Sessions
import LibSwish3.PerlHeaders
import LibSwish3.StandardInput
import LibSwish3.SearchFiles
