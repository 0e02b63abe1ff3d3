import ParquetUtil.Bits
import ParquetUtil.BitUtil
import ParquetUtil.Memory
import ParquetUtil.Writer
import ParquetUtil.WriterSpec
import ParquetUtil.WriterRun
import ParquetUtil.WriterFrame
import ParquetUtil.Pack
import ParquetUtil.Reader
import ParquetUtil.ReaderSpec
import ParquetUtil.Vlq
import ParquetUtil.ReaderRun
import ParquetUtil.RoundTrip
import ParquetUtil.VlqRead
import ParquetUtil.Bitmap
